import Mathlib
import ObjectHeap.Proofs.Load

/-! # Rounding and order

Rounding a quotient to a float keeps order, and so does rounding it up to a whole number. Thus more
entries never ask for fewer slots.
-/

namespace ObjectHeap

namespace Binary64

theorem nearestEven_mono {num num' den : Nat} (hle : num ≤ num') :
    nearestEven num den ≤ nearestEven num' den := by
  have hfloor : num / den ≤ num' / den := Nat.div_le_div_right hle
  have hsplit := Nat.div_add_mod num den
  have hsplit' := Nat.div_add_mod num' den
  simp only [nearestEven, Bool.or_eq_true, decide_eq_true_eq, Bool.and_eq_true, beq_iff_eq]
  rcases Nat.lt_or_ge (num / den) (num' / den) with hlt | hge
  · split_ifs <;> omega
  · -- with the same floor, a greater rest is not rounded down unless the smaller one is
    have heq := Nat.le_antisymm hge hfloor
    rw [heq] at hsplit'
    split_ifs <;> omega

theorem nearestEven_le {k num den : Nat} (hle : num ≤ k * den) : nearestEven num den ≤ k := by
  rcases Nat.eq_zero_or_pos den with rfl | hden
  · have hzero : num = 0 := by omega
    subst hzero
    simp [nearestEven]
  · calc nearestEven num den ≤ nearestEven (k * den) den := nearestEven_mono hle
      _ = k := by simp [nearestEven, Nat.mul_div_cancel _ hden, hden]

/-! ## Scaled quotients -/

theorem scaleUp_mono {n m : Nat} (hle : n ≤ m) (e : Int) : scaleUp n e ≤ scaleUp m e := by
  rw [scaleUp, scaleUp, Nat.shiftLeft_eq, Nat.shiftLeft_eq]
  exact Nat.mul_le_mul_right _ hle

theorem two_zpow_toNat_neg (e : Int) : (2 : ℚ) ^ (-e).toNat = 2 ^ e.toNat * 2 ^ (-e) := by
  rcases Int.eq_nat_or_neg e with ⟨k, rfl | rfl⟩
  · simp
  · simp

/-- A significand is below a scaled quotient if the number it stands for is below the quotient. -/
theorem mul_scaleUp_le_iff {a num den : Nat} {e : Int} :
    a * scaleUp den e ≤ scaleUp num (-e) ↔ (a * 2 ^ e * den : ℚ) ≤ num := by
  have hcast : ((a * scaleUp den e : Nat) : ℚ) = 2 ^ e.toNat * (a * den) := by
    simp [scaleUp, Nat.shiftLeft_eq]
    ring
  have hcast' : ((scaleUp num (-e) : Nat) : ℚ) = 2 ^ e.toNat * (num * 2 ^ (-e)) := by
    simp only [scaleUp, Nat.shiftLeft_eq, Nat.cast_mul, Nat.cast_pow, Nat.cast_ofNat,
      two_zpow_toNat_neg]
    ring
  rw [← @Nat.cast_le ℚ, hcast, hcast', mul_le_mul_iff_right₀ (by positivity), zpow_neg,
    ← div_eq_mul_inv, le_div_iff₀ (by positivity)]
  ring_nf

variable {num num' den : Nat}

/-- The quotient is not below the least significand of fifty-three bits. -/
theorem le_of_roundQuotient (den : Nat) (hnum : 0 < num) :
    (2 ^ 52 * 2 ^ (roundQuotient num den).exponent * den : ℚ) ≤ num := by
  have hnormal : 2 ^ 52 * scaleUp den (roundQuotient num den).exponent ≤ _ :=
    roundQuotient_normal hnum
  exact_mod_cast mul_scaleUp_le_iff.mp hnormal

/-- The quotient is below the least number of fifty-four bits. -/
theorem lt_of_roundQuotient (num : Nat) (hden : 0 < den) :
    (num : ℚ) < 2 ^ 53 * 2 ^ (roundQuotient num den).exponent * den := by
  simp only [roundQuotient]
  split
  next hlt =>
    rw [← not_le, mul_scaleUp_le_iff, not_le] at hlt
    refine lt_of_lt_of_eq hlt ?_
    rw [zpow_sub_one₀ two_ne_zero]
    push_cast
    ring
  next =>
    -- the exponent is what the bit lengths differ by, less fifty-two
    have hnum' : (num : ℚ) < 2 ^ (num.log2 + 1 : Int) := by
      exact_mod_cast Nat.lt_log2_self (n := num)
    have hden' : (2 ^ (den.log2 : Int) : ℚ) ≤ den := by
      exact_mod_cast Nat.log2_self_le (Nat.ne_of_gt hden)
    calc (num : ℚ) < 2 ^ (num.log2 + 1 : Int) := hnum'
      _ = 2 ^ 53 * 2 ^ ((num.log2 : Int) - den.log2 - 52) * 2 ^ (den.log2 : Int) := by
          rw [← zpow_natCast, ← zpow_add₀ two_ne_zero, ← zpow_add₀ two_ne_zero]
          congr 1
          push_cast
          ring
      _ ≤ 2 ^ 53 * 2 ^ ((num.log2 : Int) - den.log2 - 52) * den :=
          mul_le_mul_of_nonneg_left hden' (by positivity)

theorem significand_roundQuotient_le (num : Nat) (hden : 0 < den) :
    (roundQuotient num den).significand ≤ 2 ^ 53 := by
  refine nearestEven_le (Nat.le_of_lt (Nat.lt_of_not_le fun hge => ?_))
  have hge := mul_scaleUp_le_iff.mp hge
  push_cast at hge
  exact absurd (lt_of_roundQuotient num hden) (not_lt.mpr hge)

/-! ## Rounded quotients -/

/-- The number that a significand and an exponent stand for. -/
def Rounded.value (r : Rounded) : ℚ := r.significand * 2 ^ r.exponent

/-- Of two quotients, the greater one is not rounded to a smaller exponent. -/
theorem exponent_roundQuotient_mono (hnum : 0 < num) (hle : num ≤ num') (hden : 0 < den) :
    (roundQuotient num den).exponent ≤ (roundQuotient num' den).exponent := by
  by_contra hgt
  have hlower := le_of_roundQuotient den hnum
  have hupper := lt_of_roundQuotient num' hden
  have hpow : (2 : ℚ) ^ ((roundQuotient num' den).exponent + 1) ≤
      2 ^ (roundQuotient num den).exponent :=
    zpow_le_zpow_right₀ one_le_two (by omega)
  rw [zpow_add_one₀ two_ne_zero] at hpow
  have hden' : (0 : ℚ) < den := Nat.cast_pos.mpr hden
  have hle' : (num : ℚ) ≤ num' := Nat.cast_le.mpr hle
  nlinarith

/-- Of two quotients, the greater one is not rounded to a smaller number. -/
theorem value_roundQuotient_mono (hnum : 0 < num) (hle : num ≤ num') (hden : 0 < den) :
    (roundQuotient num den).value ≤ (roundQuotient num' den).value := by
  have hlower : 2 ^ 52 ≤ (roundQuotient num' den).significand :=
    le_significand_roundQuotient (Nat.lt_of_lt_of_le hnum hle) hden
  have hupper := significand_roundQuotient_le num hden
  rcases (exponent_roundQuotient_mono hnum hle hden).eq_or_lt with heq | hlt
  · have hsignificand : (roundQuotient num den).significand ≤
        (roundQuotient num' den).significand := by
      rw [significand_roundQuotient, significand_roundQuotient, heq]
      exact nearestEven_mono (scaleUp_mono hle _)
    rw [Rounded.value, Rounded.value, heq]
    exact mul_le_mul_of_nonneg_right (Nat.cast_le.mpr hsignificand) (by positivity)
  · -- even the greatest significand does not make up for the smaller exponent
    have hpow : (2 : ℚ) ^ ((roundQuotient num den).exponent + 1) ≤
        2 ^ (roundQuotient num' den).exponent :=
      zpow_le_zpow_right₀ one_le_two (by omega)
    rw [zpow_add_one₀ two_ne_zero] at hpow
    calc ((roundQuotient num den).significand * 2 ^ (roundQuotient num den).exponent : ℚ)
        ≤ 2 ^ 53 * 2 ^ (roundQuotient num den).exponent :=
          mul_le_mul_of_nonneg_right (by exact_mod_cast hupper) (by positivity)
      _ = 2 ^ 52 * (2 ^ (roundQuotient num den).exponent * 2) := by ring
      _ ≤ 2 ^ 52 * 2 ^ (roundQuotient num' den).exponent :=
          mul_le_mul_of_nonneg_left hpow (by positivity)
      _ ≤ (roundQuotient num' den).significand * 2 ^ (roundQuotient num' den).exponent :=
          mul_le_mul_of_nonneg_right (by exact_mod_cast hlower) (by positivity)

namespace Rounded

variable {r r' : Rounded}

/-- The least whole number that is not smaller than a rounded one. -/
theorem ceil_le_iff {k : Nat} : r.ceil ≤ k ↔ r.value ≤ k := by
  have hpos : 0 < 2 ^ (-r.exponent).toNat := Nat.two_pow_pos _
  have hcast : ((scaleUp r.significand r.exponent : Nat) : ℚ) =
      2 ^ (-r.exponent).toNat * r.value := by
    rw [two_zpow_toNat_neg, value]
    simp only [scaleUp, Nat.shiftLeft_eq, Nat.cast_mul, Nat.cast_pow, Nat.cast_ofNat, zpow_neg]
    field_simp
  rw [ceil, Nat.shiftLeft_eq, Nat.one_mul, Nat.div_le_iff_le_mul_add_pred hpos]
  have hshift : scaleUp r.significand r.exponent + 2 ^ (-r.exponent).toNat - 1 ≤
      2 ^ (-r.exponent).toNat * k + (2 ^ (-r.exponent).toNat - 1) ↔
      scaleUp r.significand r.exponent ≤ 2 ^ (-r.exponent).toNat * k := by omega
  rw [hshift, ← @Nat.cast_le ℚ, hcast]
  push_cast
  exact mul_le_mul_iff_right₀ (by positivity)

theorem ceil_mono (hle : r.value ≤ r'.value) : r.ceil ≤ r'.ceil :=
  ceil_le_iff.mpr (hle.trans (ceil_le_iff.mp (Nat.le_refl _)))

theorem magnitude_mono (hle : r.value ≤ r'.value) (hsteps : 0 ≤ r.exponent + 1074)
    (hsteps' : 0 ≤ r'.exponent + 1074) : r.magnitude ≤ r'.magnitude := by
  have hcast {r : Rounded} (hsteps : 0 ≤ r.exponent + 1074) :
      ((r.magnitude : Nat) : ℚ) = r.value * 2 ^ (1074 : Int) := by
    rw [magnitude, Nat.shiftLeft_eq, value, mul_assoc, ← zpow_add₀ two_ne_zero, Nat.cast_mul,
      Nat.cast_pow, ← zpow_natCast, Int.toNat_of_nonneg hsteps, Nat.cast_ofNat]
  rw [← @Nat.cast_le ℚ, hcast hsteps, hcast hsteps']
  exact mul_le_mul_of_nonneg_right hle (by positivity)

end Rounded

theorem magnitude_roundQuotient_mono {n m : Nat} (hn : 0 < n) (hle : n ≤ m) :
    (roundQuotient n 1).magnitude ≤ (roundQuotient m 1).magnitude := by
  have hsteps (n : Nat) : 0 ≤ (roundQuotient n 1).exponent + 1074 := by
    have hlog : Nat.log2 1 = 0 := by decide
    simp only [roundQuotient]
    split <;> omega
  exact Rounded.magnitude_mono (value_roundQuotient_mono hn hle Nat.one_pos) (hsteps n) (hsteps m)

end Binary64

/-! ## Slots for entries -/

namespace ProbeTable

variable {load : Binary64} {elements elements' : Nat}

/-- More entries need no fewer slots. -/
theorem slotsNeeded?_mono (hload : load.Fraction) (hle : elements ≤ elements') :
    ∃ needed needed', slotsNeeded? elements load = some needed ∧
      slotsNeeded? elements' load = some needed' ∧ needed ≤ needed' := by
  refine ⟨_, _, slotsNeeded?_eq hload elements, slotsNeeded?_eq hload elements', ?_⟩
  split
  next => exact Nat.zero_le _
  next hsome =>
    have hpos := Nat.pos_of_ne_zero hsome
    rw [if_neg (by omega)]
    exact Binary64.Rounded.ceil_mono (Binary64.value_roundQuotient_mono
      (Binary64.magnitude_roundQuotient_pos hpos) (Binary64.magnitude_roundQuotient_mono hpos hle)
      hload.pos)

theorem capacityFor?_mono (hload : load.Fraction) (hle : elements ≤ elements')
    {least slots' : Nat} (h : capacityFor? elements' load least = some slots') :
    ∃ slots, capacityFor? elements load least = some slots ∧ slots ≤ slots' := by
  obtain ⟨needed, needed', hneeded, hneeded', hle⟩ := slotsNeeded?_mono hload hle
  simp only [capacityFor?, hneeded, hneeded', bind, Option.bind_some, powerOfTwo?] at h ⊢
  have hmono : leastPower (max (needed + 1) least) ≤ leastPower (max (needed' + 1) least) :=
    leastPower_mono (by omega)
  split_ifs at h with hwide hlt
  cases h
  rw [if_neg (by omega), if_pos (Nat.lt_of_le_of_lt hmono hlt)]
  exact ⟨_, rfl, hmono⟩

end ProbeTable

end ObjectHeap
