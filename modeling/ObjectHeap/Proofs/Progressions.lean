import Mathlib.Order.Interval.Set.Nat
import Mathlib.Tactic.Common
import ObjectHeap.IntRange

/-! # Members of ranges

A range stands for the integers `start, start + step, ...` that come before `stop` in the
direction of `step`. The distance between its ends is cut off at the largest 64-bit signed integer
before it is divided into steps, so that the length counts only the members that are nearer to
`start` than that. A range that goes on past them has more members than its length says. The bound
is also what keeps indexing exact: no index below the length leads out of 64 bits.
-/

namespace ObjectHeap.IntRange

variable {r : IntRange}

/-- The distance from `start` to `stop` in the direction of `step`, however large. -/
def gap (r : IntRange) : Int :=
  if 0 < r.step.toInt then r.stop.toInt - r.start.toInt else r.start.toInt - r.stop.toInt

/-- Whether a number comes before `stop` in the direction of `step`. -/
def Precedes (r : IntRange) (n : Int) : Prop :=
  if 0 < r.step.toInt then n < r.stop.toInt else r.stop.toInt < n

/-- The indices of the numbers of the progression that come before `stop`. -/
def indices (r : IntRange) : Set Nat := { k | r.Precedes (r.start.toInt + r.step.toInt * k) }

/-- How far an index leads away from `start`. -/
def reach (r : IntRange) (k : Nat) : Nat := k * r.step.toInt.natAbs

theorem bounds_eq : Int64.minValue.toInt = -9223372036854775808 ∧
    Int64.maxValue.toInt = 9223372036854775807 := by decide

theorem toInt_step_ne_zero (h : r.step ≠ 0) : r.step.toInt ≠ 0 := by
  intro hzero
  exact h (Int64.toInt_inj.mp hzero)

/-- An index leads up or down, as the step does. -/
theorem step_mul_eq (r : IntRange) (k : Nat) :
    r.step.toInt * k = if 0 < r.step.toInt then (r.reach k : Int) else -(r.reach k : Int) := by
  rw [reach, Nat.cast_mul, mul_comm]
  split
  next hup => rw [Int.natAbs_of_nonneg hup.le]
  next hdown => rw [Int.ofNat_natAbs_of_nonpos (Int.not_lt.mp hdown), mul_neg, neg_neg]

theorem le_reach (h : r.step ≠ 0) (k : Nat) : k ≤ r.reach k :=
  Nat.le_mul_of_pos_right k (Int.natAbs_pos.mpr (toInt_step_ne_zero h))

/-- The members are less than the gap away from `start`. -/
theorem mem_indices_iff {k : Nat} : k ∈ r.indices ↔ (r.reach k : Int) < r.gap := by
  have hstep := r.step_mul_eq k
  simp only [indices, Set.mem_ofPred_eq, Precedes, gap]
  split at hstep <;> rename_i hup
  · rw [if_pos hup, if_pos hup]
    omega
  · rw [if_neg hup, if_neg hup]
    omega

/-! ## Lengths -/

theorem lt_saturate_iff {m : Nat} {n : Int} :
    (m : Int) < saturate n ↔ (m : Int) < n ∧ (m : Int) < Int64.maxValue.toInt := by
  obtain ⟨hmin, hmax⟩ := bounds_eq
  rw [saturate, hmin, hmax]
  split
  · omega
  · split <;> omega

theorem distance_eq (r : IntRange) : r.distance = saturate r.gap := by
  rw [distance, gap]
  split <;> rfl

/-- An index is below the length if it leads less than the distance away from `start`. -/
theorem exists_len_lt (h : r.step ≠ 0) :
    ∃ n, r.len = .ok n ∧ ∀ k, k < n ↔ (r.reach k : Int) < r.distance := by
  have hstep := toInt_step_ne_zero h
  by_cases hnone : r.distance ≤ 0
  · rw [len, if_pos hnone]
    exact ⟨0, rfl, fun k => by omega⟩
  · rw [len, if_neg hnone, if_neg hstep]
    refine ⟨_, rfl, fun k => ?_⟩
    rw [← Nat.succ_le_iff, Nat.le_div_iff_mul_le (Int.natAbs_pos.mpr hstep), Nat.succ_mul, reach]
    omega

theorem exists_len (h : r.step ≠ 0) : ∃ n, r.len = .ok n :=
  (exists_len_lt h).imp fun _ hn => hn.1

/-- The indices below the length are those of members that are not too far away. -/
theorem lt_len_iff (h : r.step ≠ 0) {n k : Nat} (hn : r.len = .ok n) :
    k < n ↔ k ∈ r.indices ∧ (r.reach k : Int) < Int64.maxValue.toInt := by
  obtain ⟨n', hn', hlt⟩ := exists_len_lt h
  cases hn.symm.trans hn'
  rw [hlt, distance_eq, lt_saturate_iff, mem_indices_iff]

/-- No two ends are `2 ^ 64` apart. -/
theorem gap_lt (r : IntRange) : r.gap < 2 ^ 64 := by
  obtain ⟨hmin, hmax⟩ := bounds_eq
  have hstart := r.start.minValue_le_toInt
  have hstart' := r.start.toInt_le
  have hstop := r.stop.minValue_le_toInt
  have hstop' := r.stop.toInt_le
  rw [gap]
  split <;> omega

theorem indices_subset (h : r.step ≠ 0) : r.indices ⊆ Set.Iio (2 ^ 64 - 1) := by
  intro k hk
  have hlt := mem_indices_iff.mp hk
  have hle := le_reach h k
  have hgap := r.gap_lt
  rw [Set.mem_Iio]
  omega

/-- The length counts the members that are less than `2 ^ 63 - 1` away from `start`. It is the
number of all members exactly if they are all that near, as they are if the distance between the
ends is a 64-bit signed integer. There are never more members than 64 bits can count. -/
theorem len_counts_near (r : IntRange) (h : r.step ≠ 0) :
    r.indices.Finite ∧ r.indices.ncard < 2 ^ 64 ∧
      r.len = .ok { k ∈ r.indices | (r.reach k : Int) < Int64.maxValue.toInt }.ncard ∧
      (r.len = .ok r.indices.ncard ↔
        ∀ k ∈ r.indices, (r.reach k : Int) < Int64.maxValue.toInt) ∧
      (r.gap ≤ Int64.maxValue.toInt → r.len = .ok r.indices.ncard) := by
  have hfinite : r.indices.Finite := (Set.finite_Iio _).subset (indices_subset h)
  have hcount : r.indices.ncard ≤ 2 ^ 64 - 1 :=
    (Set.ncard_le_ncard (indices_subset h) (Set.finite_Iio _)).trans_eq (Set.ncard_Iio_nat _)
  obtain ⟨n, hn⟩ := exists_len h
  have hnear : { k ∈ r.indices | (r.reach k : Int) < Int64.maxValue.toInt } = Set.Iio n :=
    Set.ext fun k => (lt_len_iff h hn).symm
  have hlen : r.len = .ok { k ∈ r.indices | (r.reach k : Int) < Int64.maxValue.toInt }.ncard := by
    rw [hnear, Set.ncard_Iio_nat, hn]
  have hexact : r.len = .ok r.indices.ncard ↔
      ∀ k ∈ r.indices, (r.reach k : Int) < Int64.maxValue.toInt := by
    rw [hlen, Except.ok.injEq, ← Set.sep_eq_self_iff_mem_true]
    refine ⟨fun heq => ?_, fun heq => by rw [heq]⟩
    exact Set.eq_of_subset_of_ncard_le (Set.sep_subset _ _) heq.ge hfinite
  refine ⟨hfinite, by omega, hlen, hexact, fun hgap => hexact.mpr fun k hk => ?_⟩
  exact (mem_indices_iff.mp hk).trans_le hgap

/-- All 64-bit signed integers but the largest, in steps of a quarter of their number. -/
def quarters : IntRange := ⟨Int64.minValue, Int64.maxValue, 4611686018427387904⟩

theorem indices_quarters : quarters.indices = Set.Iio 4 := by
  ext k
  have hgap : quarters.gap = 18446744073709551615 := by decide
  have hstep : quarters.step.toInt.natAbs = 4611686018427387904 := by decide
  rw [mem_indices_iff, hgap, reach, hstep, Set.mem_Iio]
  omega

/-- A range of four members with two of them farther away than the length can see. -/
theorem len_quarters : quarters.step ≠ 0 ∧ quarters.indices.ncard = 4 ∧ quarters.len = .ok 2 := by
  refine ⟨by decide, ?_, by decide⟩
  rw [indices_quarters, Set.ncard_Iio_nat]

/-- The same steps in the lower half of the integers. -/
theorem len_counts_near_half :
    let r : IntRange := ⟨Int64.minValue, -1, 4611686018427387904⟩
    r.step ≠ 0 ∧ r.gap = Int64.maxValue.toInt ∧ r.len = .ok r.indices.ncard := by
  refine ⟨by decide, by decide, ?_⟩
  exact (len_counts_near _ (by decide)).2.2.2.2 (by decide)

/-! ## Members -/

theorem signed_eq {n : Int} (hmin : Int64.minValue.toInt ≤ n) (hmax : n ≤ Int64.maxValue.toInt) :
    signed n = .ok n := if_pos ⟨hmin, hmax⟩

/-- The number at an index of a progression. -/
def member (r : IntRange) (index : Nat) : Int64 :=
  Int64.ofInt (r.start.toInt + r.step.toInt * index)

/-- What is computed on the way to the member at an index: the index as a 64-bit signed integer,
the product, and the sum. None of them leaves its bounds below the length. -/
structure Indexes (r : IntRange) (index : Nat) : Prop where
  index_eq : (Int64.ofNat index).toInt = index
  product_ge : Int64.minValue.toInt ≤ r.step.toInt * index
  product_le : r.step.toInt * index ≤ Int64.maxValue.toInt
  sum_ge : Int64.minValue.toInt ≤ r.start.toInt + r.step.toInt * index
  sum_le : r.start.toInt + r.step.toInt * index ≤ Int64.maxValue.toInt

theorem indexes_of_lt_len (h : r.step ≠ 0) {n index : Nat} (hn : r.len = .ok n)
    (hindex : index < n) : r.Indexes index := by
  obtain ⟨hmem, hnear⟩ := (lt_len_iff h hn).mp hindex
  have hgap := mem_indices_iff.mp hmem
  have hle := le_reach h index
  have hstep := r.step_mul_eq index
  have hstart := r.start.minValue_le_toInt
  have hstart' := r.start.toInt_le
  have hstop := r.stop.minValue_le_toInt
  have hstop' := r.stop.toInt_le
  obtain ⟨hmin, hmax⟩ := bounds_eq
  refine ⟨Int64.toInt_ofNat_of_lt (by omega), ?_, ?_, ?_, ?_⟩ <;>
  · rw [gap] at hgap
    split at hstep
    next hup =>
      rw [if_pos hup] at hgap
      omega
    next hdown =>
      rw [if_neg hdown] at hgap
      omega

/-- The sum of a member is not rounded. -/
theorem Indexes.toInt_member {index : Nat} (h : r.Indexes index) :
    (r.member index).toInt = r.start.toInt + r.step.toInt * index := by
  obtain ⟨hmin, hmax⟩ := bounds_eq
  have hge := h.sum_ge
  have hle := h.sum_le
  exact Int64.toInt_ofInt_of_le (by omega) (by omega)

/-- No member of a range is out of the bounds of its arithmetic. -/
theorem nth?_eq (h : r.step ≠ 0) {n : Nat} (hn : r.len = .ok n) (index : Nat) :
    r.nth? index = .ok (if index < n then some (r.member index) else none) := by
  by_cases hend : n ≤ index
  · simp only [nth?, hn, bind, Except.bind, if_pos hend, if_neg (Nat.not_lt.mpr hend)]
    rfl
  · have hindexes := indexes_of_lt_len h hn (Nat.lt_of_not_le hend)
    simp only [nth?, hn, bind, Except.bind, if_neg hend, if_pos (Nat.lt_of_not_le hend),
      hindexes.index_eq, signed_eq hindexes.product_ge hindexes.product_le,
      signed_eq hindexes.sum_ge hindexes.sum_le]
    rfl

/-- Indexing a range never faults. Past the length there is no member. Below it, the index is a
64-bit signed integer, and so is what it makes of the step; the member is the number of the
progression at that index, and comes before `stop`. -/
theorem nth?_exact (r : IntRange) (h : r.step ≠ 0) (index : Nat) :
    ∃ n, r.len = .ok n ∧ (r.nth? index = .ok none ↔ n ≤ index) ∧
      (index < n → (Int64.ofNat index).toInt = index ∧
        (∃ product : Int64, product.toInt = r.step.toInt * index) ∧
        ∃ m, r.nth? index = .ok (some m) ∧ m.toInt = r.start.toInt + r.step.toInt * index ∧
          r.Precedes m.toInt) := by
  obtain ⟨n, hn⟩ := exists_len h
  refine ⟨n, hn, ?_, fun hindex => ?_⟩
  · rw [nth?_eq h hn]
    by_cases hindex : index < n <;> simp [hindex, Nat.not_le.mpr, Nat.not_lt.mp]
  · have hindexes := indexes_of_lt_len h hn hindex
    have hmem := ((lt_len_iff h hn).mp hindex).1
    obtain ⟨hmin, hmax⟩ := bounds_eq
    have hge := hindexes.product_ge
    have hle := hindexes.product_le
    refine ⟨hindexes.index_eq, ⟨.ofInt _, Int64.toInt_ofInt_of_le (by omega) (by omega)⟩,
      r.member index, ?_, hindexes.toInt_member, ?_⟩
    · rw [nth?_eq h hn, if_pos hindex]
    · rw [hindexes.toInt_member]
      exact hmem

/-- The widest range has its last member just below the middle. -/
theorem nth?_exact_widest :
    let r : IntRange := ⟨Int64.minValue, Int64.maxValue, 1⟩
    (∃ m, r.nth? 9223372036854775806 = .ok (some m) ∧ m.toInt = -2 ∧ r.Precedes m.toInt) ∧
      r.nth? 9223372036854775807 = .ok none := by
  intro r
  have hstep : r.step ≠ 0 := by decide
  have hlen : r.len = .ok 9223372036854775807 := by decide
  constructor
  · obtain ⟨n, hn, _, hmember⟩ := r.nth?_exact hstep 9223372036854775806
    cases hlen.symm.trans hn
    obtain ⟨_, _, m, hm, hvalue, hbefore⟩ := hmember (by decide)
    exact ⟨m, hm, hvalue.trans (by decide), hbefore⟩
  · obtain ⟨n, hn, hnone, _⟩ := r.nth?_exact hstep 9223372036854775807
    cases hlen.symm.trans hn
    exact hnone.mpr (by decide)

end ObjectHeap.IntRange
