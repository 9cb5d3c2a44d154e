import Mathlib.Tactic.Common
import Mathlib.Tactic.Ring
import ObjectHeap.Proofs.Probing
import ObjectHeap.Settings

/-! # Load factors

The number of slots asked for some elements is a quotient of floats, rounded twice. The
rounding loses less than the slot that is added to it: under an admitted load factor, the
slots hold the elements without a rehash.
-/

namespace ObjectHeap

namespace Binary64

/-- A positive number below one. -/
structure Fraction (x : Binary64) : Prop where
  not_nan : x.isNaN = false
  not_negative : x.isNegative = false
  not_infinite : x.isInfinite = false
  pos : 0 < x.magnitude
  lt_one : x.magnitude < unit

theorem unit_pos : 0 < unit := by
  simp only [unit, Nat.one_shiftLeft, Nat.two_pow_pos]

theorem one_shiftLeft_le_two_pow {i j : Nat} (hij : i ≤ j) : 1 <<< i ≤ 2 ^ j := by
  rw [Nat.one_shiftLeft]
  exact Nat.pow_le_pow_right Nat.two_pos hij

theorem Fraction.steps_eq {x : Binary64} (h : x.Fraction) : x.steps = x.magnitude := by
  rw [steps, h.not_negative]
  rfl

/-- Rounding to nearest loses half a unit at most. -/
theorem nearestEven_lower (num : Nat) {den : Nat} (hden : 0 < den) :
    2 * num ≤ 2 * (nearestEven num den * den) + den := by
  have hsplit := Nat.div_add_mod num den
  have hrest := Nat.mod_lt num hden
  rw [Nat.mul_comm] at hsplit
  rw [nearestEven]
  split
  next hdown =>
    simp only [Bool.or_eq_true, decide_eq_true_eq, Bool.and_eq_true, beq_iff_eq] at hdown
    omega
  next =>
    rw [Nat.add_mul]
    omega

theorem le_nearestEven {k num den : Nat} (hden : 0 < den) (h : k * den ≤ num) :
    k ≤ nearestEven num den := by
  have hfloor : k ≤ num / den := (Nat.le_div_iff_mul_le hden).mpr h
  rw [nearestEven]
  split <;> omega

theorem scaleUp_natCast (n k : Nat) : scaleUp n (k : Int) = n * 2 ^ k := by
  simp [scaleUp, Nat.shiftLeft_eq]

theorem scaleUp_neg_natCast (n k : Nat) : scaleUp n (-(k : Int)) = n := by
  simp [scaleUp]

/-- The exponent is small enough for a significand of fifty-three bits. -/
theorem roundQuotient_normal {num den : Nat} (hnum : 0 < num) :
    2 ^ 52 * scaleUp den (roundQuotient num den).exponent ≤
      scaleUp num (-(roundQuotient num den).exponent) := by
  simp only [roundQuotient]
  split
  next =>
    have hnum' : 2 ^ num.log2 ≤ num := Nat.log2_self_le (Nat.ne_of_gt hnum)
    have hden' : den < 2 ^ (den.log2 + 1) := Nat.lt_log2_self
    generalize num.log2 = high at hnum' ⊢
    generalize den.log2 = low at hden' ⊢
    -- the exponent is what the bit lengths differ by, less fifty-three
    rcases Nat.le_total (low + 53) high with hle | hle
    · obtain ⟨k, rfl⟩ := Nat.exists_eq_add_of_le hle
      have hexp : ((low + 53 + k : Nat) : Int) - low - 52 - 1 = (k : Int) := by omega
      rw [hexp, scaleUp_natCast, scaleUp_neg_natCast]
      calc 2 ^ 52 * (den * 2 ^ k)
          ≤ 2 ^ 52 * (2 ^ (low + 1) * 2 ^ k) :=
            Nat.mul_le_mul_left _ (Nat.mul_le_mul_right _ (Nat.le_of_lt hden'))
        _ = 2 ^ (low + 53 + k) := by ring
        _ ≤ num := hnum'
    · obtain ⟨k, hk⟩ := Nat.exists_eq_add_of_le hle
      have hexp : (high : Int) - low - 52 - 1 = -(k : Int) := by omega
      rw [hexp, scaleUp_neg_natCast, Int.neg_neg, scaleUp_natCast]
      calc 2 ^ 52 * den
          ≤ 2 ^ 52 * 2 ^ (low + 1) := Nat.mul_le_mul_left _ (Nat.le_of_lt hden')
        _ = 2 ^ (low + 53) := by ring
        _ = 2 ^ high * 2 ^ k := by rw [hk, Nat.pow_add]
        _ ≤ num * 2 ^ k := Nat.mul_le_mul_right _ hnum'
  next hge => exact Nat.le_of_not_lt hge

theorem scaleUp_pos {n : Nat} (hn : 0 < n) (e : Int) : 0 < scaleUp n e := by
  rw [scaleUp, Nat.shiftLeft_eq]
  exact Nat.mul_pos hn (Nat.two_pow_pos _)

/-- The significand is the quotient at the exponent, rounded to nearest. -/
theorem significand_roundQuotient (num den : Nat) : (roundQuotient num den).significand =
    nearestEven (scaleUp num (-(roundQuotient num den).exponent))
      (scaleUp den (roundQuotient num den).exponent) := rfl

/-- A quotient is rounded to a significand of 53 bits at least. -/
theorem le_significand_roundQuotient {num den : Nat} (hnum : 0 < num) (hden : 0 < den) :
    2 ^ 52 ≤ (roundQuotient num den).significand :=
  le_nearestEven (scaleUp_pos hden _) (roundQuotient_normal hnum)

/-- Rounding to a float and then up loses less than one, unless the quotient is huge. -/
theorem ceil_roundQuotient_lower {num den : Nat} (hnum : 0 < num) (hden : 0 < den) :
    num ≤ ((roundQuotient num den).ceil + 1) * den ∨ 2 ^ 52 ≤ (roundQuotient num den).ceil := by
  have hlarge := le_significand_roundQuotient hnum hden
  have hsignificand := significand_roundQuotient num den
  rw [Rounded.ceil, Nat.shiftLeft_eq, Nat.one_mul]
  generalize (roundQuotient num den).exponent = e at hsignificand ⊢
  generalize (roundQuotient num den).significand = significand at hsignificand hlarge ⊢
  rcases Int.eq_nat_or_neg e with ⟨k, rfl | rfl⟩
  · right
    have hscale : significand ≤ significand * 2 ^ k := Nat.le_mul_of_pos_right _ (Nat.two_pow_pos k)
    have hone : (-(k : Int)).toNat = 0 := by omega
    rw [hone, scaleUp_natCast, Nat.pow_zero, Nat.div_one]
    omega
  · left
    rw [Int.neg_neg, scaleUp_natCast, scaleUp_neg_natCast] at hsignificand
    rw [Int.neg_neg, Int.toNat_natCast, scaleUp_neg_natCast]
    have hlower := nearestEven_lower (num * 2 ^ k) hden
    rw [← hsignificand] at hlower
    have hpow : 1 ≤ 2 ^ k := Nat.two_pow_pos k
    generalize hceil : (significand + 2 ^ k - 1) / 2 ^ k = ceil
    have hup : significand ≤ ceil * 2 ^ k := by
      have hmod := Nat.div_add_mod (significand + 2 ^ k - 1) (2 ^ k)
      have hlt := Nat.mod_lt (significand + 2 ^ k - 1) (Nat.two_pow_pos k)
      rw [hceil, Nat.mul_comm] at hmod
      omega
    have hbound : 2 * (num * 2 ^ k) ≤ 2 * ((ceil + 1) * den * 2 ^ k) := by
      calc 2 * (num * 2 ^ k)
          ≤ 2 * (significand * den) + den := hlower
        _ ≤ 2 * (ceil * 2 ^ k * den) + 2 * (den * 2 ^ k) := by
            have hmul := Nat.mul_le_mul_right den hup
            have hden' := Nat.le_mul_of_pos_right den (Nat.two_pow_pos k)
            omega
        _ = 2 * ((ceil + 1) * den * 2 ^ k) := by ring
    exact Nat.le_of_mul_le_mul_right (Nat.le_of_mul_le_mul_left hbound (by decide))
      (Nat.two_pow_pos k)

/-- Whole numbers of up to fifty-three bits are floats, and larger ones do not become smaller
than those. -/
theorem magnitude_roundQuotient_one {n : Nat} (hn : 0 < n) :
    (roundQuotient n 1).magnitude = n * unit ∨ 2 ^ 52 * unit ≤ (roundQuotient n 1).magnitude := by
  rcases Nat.lt_or_ge n.log2 53 with hlt | hge
  · left
    obtain ⟨k, hk⟩ := Nat.exists_eq_add_of_le (Nat.le_of_lt_succ hlt)
    have hguess : (n.log2 : Int) - Nat.log2 1 - 52 = -(k : Int) := by
      have hlog : Nat.log2 1 = 0 := by decide
      omega
    have hself : 2 ^ n.log2 ≤ n := Nat.log2_self_le (Nat.ne_of_gt hn)
    have hbranch : ¬ scaleUp n (- -(k : Int)) < 4503599627370496 * scaleUp 1 (-(k : Int)) := by
      rw [Int.neg_neg, scaleUp_natCast, scaleUp_neg_natCast, Nat.not_lt]
      calc 4503599627370496 * 1 = 2 ^ n.log2 * 2 ^ k := by rw [← Nat.pow_add, ← hk]
        _ ≤ n * 2 ^ k := Nat.mul_le_mul_right _ hself
    have hround : roundQuotient n 1 = ⟨n * 2 ^ k, -(k : Int)⟩ := by
      simp only [roundQuotient, hguess, if_neg hbranch]
      rw [Int.neg_neg, scaleUp_natCast, scaleUp_neg_natCast]
      simp [nearestEven, Nat.mod_one]
    have hexp : (-(k : Int) + 1074).toNat = 1074 - k := by omega
    rw [hround, Rounded.magnitude, hexp, Nat.shiftLeft_eq, unit, Nat.one_shiftLeft, Nat.mul_assoc,
      ← Nat.pow_add]
    congr 2
    omega
  · right
    have hlarge := le_significand_roundQuotient hn Nat.one_pos
    have hexp : 0 ≤ (roundQuotient n 1).exponent := by
      have hlog : Nat.log2 1 = 0 := by decide
      simp only [roundQuotient]
      split <;> omega
    rw [Rounded.magnitude, Nat.shiftLeft_eq, unit]
    exact Nat.mul_le_mul hlarge (one_shiftLeft_le_two_pow (by omega))

theorem magnitude_roundQuotient_pos {n : Nat} (hn : 0 < n) : 0 < (roundQuotient n 1).magnitude := by
  rcases magnitude_roundQuotient_one hn with heq | hlarge
  · rw [heq]
    exact Nat.mul_pos hn unit_pos
  · exact Nat.lt_of_lt_of_le (Nat.mul_pos (Nat.two_pow_pos 52) unit_pos) hlarge

end Binary64

/-- The load factor of settings without a flaw is a fraction. -/
theorem Settings.fraction_of_flaw? {s : Settings} (h : s.flaw? = none) :
    s.loadFactor.Fraction := by
  have hrange : loadFactorMin.le s.loadFactor = true ∧ s.loadFactor.le loadFactorMax = true := by
    unfold flaw? at h
    split_ifs at h with _ _ _ hload
    simpa using hload
  simp only [Binary64.le, Bool.and_eq_true, Bool.not_eq_true', decide_eq_true_eq] at hrange
  obtain ⟨⟨⟨_, hnan⟩, hmin⟩, ⟨_, hmax⟩⟩ := hrange
  have hleast : 0 < loadFactorMin.steps := by decide +kernel
  have hmost : loadFactorMax.steps < Binary64.unit := by decide +kernel
  have hneg : s.loadFactor.isNegative = false := by
    by_contra htrue
    rw [Bool.not_eq_false] at htrue
    have hsteps : s.loadFactor.steps = -s.loadFactor.magnitude := by
      rw [Binary64.steps, htrue]
      rfl
    omega
  have hsteps : s.loadFactor.steps = s.loadFactor.magnitude := by
    rw [Binary64.steps, hneg]
    rfl
  rw [hsteps] at hmin hmax
  have hlt : s.loadFactor.magnitude < Binary64.unit := by omega
  refine ⟨hnan, hneg, ?_, by omega, hlt⟩
  -- an infinity has the magnitude after the largest number
  by_contra htrue
  simp only [Bool.not_eq_false, Binary64.isInfinite, Bool.and_eq_true, beq_iff_eq] at htrue
  rw [Binary64.magnitude, htrue.1, htrue.2] at hlt
  exact absurd hlt (by decide +kernel)

namespace ProbeTable

/-- A table needs no rehash if one entry more keeps its load within bounds, in exact numbers. -/
theorem needsRehash_eq_false_iff {t : ProbeTable} {load : Binary64} (hload : load.Fraction) :
    t.needsRehash load = false ↔
      (t.size + t.tombstones + 1) * Binary64.unit ≤ t.capacity * load.magnitude := by
  rw [needsRehash, hload.not_nan, hload.steps_eq]
  simp only [Bool.not_false, Bool.true_and, decide_eq_false_iff_not, not_lt]
  exact_mod_cast Iff.rfl

/-- A table that has slots left under its load needs no rehash. -/
theorem needsRehash_of_left {t : ProbeTable} {load : Binary64} (hload : load.Fraction)
    {left : Nat} (h : (t.size + t.tombstones + (left + 1)) * Binary64.unit ≤
      t.capacity * load.magnitude) : t.needsRehash load = false := by
  rw [needsRehash_eq_false_iff hload]
  exact Nat.le_trans (Nat.mul_le_mul_right _ (by omega)) h

/-- A table that needs no rehash has an unused slot besides the next one to be used. -/
theorem room_of_needsRehash {t : ProbeTable} {load : Binary64} (hload : load.Fraction)
    (h : t.needsRehash load = false) : t.size + t.tombstones + 1 < t.capacity := by
  rw [needsRehash_eq_false_iff hload] at h
  by_contra hle
  have hpos : 0 < t.size + t.tombstones + 1 := Nat.succ_pos _
  have hlt : t.capacity * load.magnitude < (t.size + t.tombstones + 1) * Binary64.unit :=
    calc t.capacity * load.magnitude
        ≤ (t.size + t.tombstones + 1) * load.magnitude :=
          Nat.mul_le_mul_right _ (Nat.le_of_not_lt hle)
      _ < (t.size + t.tombstones + 1) * Binary64.unit :=
          Nat.mul_lt_mul_of_pos_left hload.lt_one hpos
  exact absurd h (Nat.not_le_of_lt hlt)

theorem slotsNeeded?_eq {load : Binary64} (hload : load.Fraction) (elements : Nat) :
    slotsNeeded? elements load = some (if elements = 0 then 0 else
      (Binary64.roundQuotient (Binary64.roundQuotient elements 1).magnitude
        load.magnitude).ceil) := by
  rw [slotsNeeded?, hload.not_nan, hload.not_negative, hload.not_infinite]
  simp only [Bool.false_or, Bool.or_false, beq_iff_eq, Nat.ne_of_gt hload.pos, if_false]
  split <;> rfl

/-- The slots computed are one short of what the load asks for at most, while they are fewer
than `2 ^ 52`. -/
theorem slotsNeeded?_lower {load : Binary64} (hload : load.Fraction) {elements needed : Nat}
    (h : slotsNeeded? elements load = some needed) :
    elements * Binary64.unit ≤ (needed + 1) * load.magnitude ∨ 2 ^ 52 ≤ needed + 1 := by
  rw [slotsNeeded?_eq hload] at h
  cases h
  split
  next hzero => exact Or.inl (by rw [hzero, Nat.zero_mul]; exact Nat.zero_le _)
  next hsome =>
    have helements : 0 < elements := Nat.pos_of_ne_zero hsome
    have hpos := Binary64.magnitude_roundQuotient_pos helements
    have hunit := Binary64.unit_pos
    have hlt := hload.lt_one
    have hamount := Binary64.magnitude_roundQuotient_one helements
    generalize Binary64.unit = one at hunit hlt hamount ⊢
    generalize (Binary64.roundQuotient elements 1).magnitude = amount at hamount hpos ⊢
    rcases Binary64.ceil_roundQuotient_lower hpos hload.pos with hlower | hlarge
    · rcases hamount with rfl | hhuge
      · exact Or.inl hlower
      · right
        by_contra hsmall
        have hless := Nat.mul_lt_mul_of_lt_of_le (Nat.lt_of_not_le hsmall) (Nat.le_of_lt hlt) hunit
        exact absurd (Nat.le_trans hhuge hlower) (Nat.not_le_of_lt hless)
    · exact Or.inr (Nat.le_succ_of_le hlarge)

/-- The slots asked for some elements hold them without a rehash. -/
theorem capacityFor?_spec {load : Binary64} (hload : load.Fraction) {elements least slots : Nat}
    (h : capacityFor? elements load least = some slots) :
    slots.isPowerOfTwo ∧ slots < span64 ∧
      (slots < 2 ^ 52 → elements * Binary64.unit ≤ slots * load.magnitude) := by
  simp only [capacityFor?, bind, Option.bind_eq_some_iff] at h
  obtain ⟨needed, hneeded, h⟩ := h
  split at h
  · cases h
  obtain ⟨hpow, hle, hlt⟩ := powerOfTwo?_eq_some h
  refine ⟨hpow, hlt, fun hsmall => ?_⟩
  have hslots : needed + 1 ≤ slots := Nat.le_trans (Nat.le_max_left ..) hle
  rcases slotsNeeded?_lower hload hneeded with hlower | hlarge
  · exact Nat.le_trans hlower (Nat.mul_le_mul_right _ hslots)
  · omega

/-- Slots that hold some elements without a rehash are more than the elements. -/
theorem lt_of_mul_unit_le {load : Binary64} (hload : load.Fraction) {elements slots : Nat}
    (hpos : 0 < elements) (h : elements * Binary64.unit ≤ slots * load.magnitude) :
    elements < slots := by
  by_contra hle
  have hlt := Nat.mul_lt_mul_of_le_of_lt (Nat.le_of_not_lt hle) hload.lt_one hpos
  exact absurd h (Nat.not_le_of_lt hlt)

/-- Whether no more slots are in use than the fraction `load` of all slots. -/
def Within (t : ProbeTable) (load : Binary64) : Prop :=
  (t.size + t.tombstones) * Binary64.unit ≤ t.capacity * load.magnitude

theorem Unused.within {t : ProbeTable} (hunused : t.Unused) (hvalid : t.Valid)
    (load : Binary64) : t.Within load := by
  rw [Within, hvalid.size_eq, hunused.toList_eq, hunused.tombstones_eq]
  exact Nat.le_trans (Nat.le_of_eq (Nat.zero_mul _)) (Nat.zero_le _)

/-- A table within its load has an unused slot. -/
theorem Within.used_lt {t : ProbeTable} {load : Binary64} (hwithin : t.Within load)
    (hload : load.Fraction) (hvalid : t.Valid) : t.size + t.tombstones < t.capacity := by
  rcases Nat.eq_zero_or_pos (t.size + t.tombstones) with hzero | hpos
  · rw [hzero]
    exact hvalid.capacity_pos
  · exact lt_of_mul_unit_le hload hpos hwithin

end ProbeTable

end ObjectHeap
