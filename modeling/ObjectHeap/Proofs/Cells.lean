import Mathlib.Tactic.Common
import ObjectHeap.BoundedSeq

/-! # Cells of sequences

A sequence is *valid* if its length is within its capacity and the cells out of use hold the
default element. Each operation keeps a sequence valid, and does to its elements what the same
operation does to a list.
-/

namespace ObjectHeap

namespace BoundedSeq

variable {α : Type} [Inhabited α]

/-- A sequence within its cells, with the unused ones cleared. -/
structure Valid (s : BoundedSeq α) : Prop where
  len_le : s.len ≤ s.capacity
  unused : ∀ (i : Nat) (a : α), s.len ≤ i → s.cells[i]? = some a → a = default

omit [Inhabited α] in
/-- The items are the first cells. -/
theorem toList_eq_take (s : BoundedSeq α) : s.toList = s.cells.toList.take s.len := by
  simp [toList, toArray]

theorem Valid.length_toList {s : BoundedSeq α} (h : s.Valid) : s.toList.length = s.len := by
  rw [toList_eq_take, List.length_take, Array.length_toList]
  exact Nat.min_eq_left h.len_le

omit [Inhabited α] in
/-- Reading a cell within the length is reading an item. -/
theorem get?_eq (s : BoundedSeq α) (index : Nat) : s.get? index = s.toList[index]? := by
  rw [get?, toList_eq_take, List.getElem?_take, Array.getElem?_toList]

theorem valid_withCapacity (n : Nat) : (withCapacity n : BoundedSeq α).Valid := by
  refine ⟨Nat.zero_le _, fun i a _ hi => ?_⟩
  simp only [withCapacity, Array.getElem?_replicate] at hi
  split at hi
  · exact (Option.some.inj hi).symm
  · cases hi

theorem valid_zeroed (n : Nat) : (zeroed n : BoundedSeq α).Valid := by
  refine ⟨by simp [zeroed, capacity], fun i a hle hi => ?_⟩
  have hlt := (Array.getElem?_eq_some_iff.mp hi).1
  simp only [zeroed, Array.size_replicate] at hle hlt
  omega

theorem valid_filled (items : Array α) : (filled items).Valid := by
  refine ⟨Nat.le_refl _, fun i a hle hi => ?_⟩
  have hlt := (Array.getElem?_eq_some_iff.mp hi).1
  exact absurd hle (Nat.not_le_of_lt hlt)

/-- A change of a sequence that keeps its cells and adds some elements at most. -/
structure Adjusts (s s' : BoundedSeq α) (added : List α) : Prop where
  valid : s'.Valid
  capacity_eq : s'.capacity = s.capacity
  mem : ∀ a ∈ s'.toList, a ∈ s.toList ∨ a ∈ added ∨ a = default

variable {s s' : BoundedSeq α}

omit [Inhabited α] in
/-- Setting a cell replaces an item. -/
theorem toList_set? {index : Nat} {item : α} (hset : s.set? index item = some s') :
    s'.toList = s.toList.set index item := by
  rw [set?] at hset
  split at hset
  case isFalse => cases hset
  next hlt =>
    cases hset
    rw [toList_eq_take, toList_eq_take, Array.toList_setIfInBounds, List.take_set]

theorem adjusts_set? (h : s.Valid) {index : Nat} {item : α} (hset : s.set? index item = some s') :
    s.Adjusts s' [item] := by
  rw [set?] at hset
  split at hset
  case isFalse => cases hset
  next hlt =>
    cases hset
    refine ⟨⟨by simpa [capacity] using h.len_le, fun i a hle hi => ?_⟩, by simp [capacity],
      fun a ha => ?_⟩
    · dsimp only at hle
      rw [Array.getElem?_setIfInBounds, if_neg (by omega)] at hi
      exact h.unused i a hle hi
    · rw [toList_set? (if_pos hlt)] at ha
      rcases List.mem_or_eq_of_mem_set ha with hold | rfl
      · exact Or.inl hold
      · exact Or.inr (Or.inl (List.mem_singleton.mpr rfl))

/-- An element can be replaced if there is one at the index. -/
theorem set?_cases (h : s.Valid) (index : Nat) (item : α) :
    (s.set? index item = none ∧ s.toList.length ≤ index) ∨
      ∃ s', s.set? index item = some s' ∧ index < s.toList.length ∧ s.Adjusts s' [item] ∧
        s'.toList = s.toList.set index item := by
  rw [h.length_toList]
  by_cases hlt : index < s.len
  · have hset : s.set? index item = some { s with cells := s.cells.setIfInBounds index item } :=
      if_pos hlt
    exact Or.inr ⟨_, hset, hlt, adjusts_set? h hset, toList_set? hset⟩
  · exact Or.inl ⟨if_neg hlt, Nat.le_of_not_lt hlt⟩

/-- An item is pushed into the first cell that is not used. -/
theorem toList_push? (h : s.Valid) {item : α} (hpush : s.push? item = some s') :
    s'.toList = s.toList ++ [item] := by
  rw [push?] at hpush
  split at hpush
  case isTrue => cases hpush
  next hfull =>
    cases hpush
    have hlt : s.len < s.cells.toList.length := by
      have hle := h.len_le
      simp only [isFull, capacity, beq_iff_eq] at hfull hle
      rw [Array.length_toList]
      omega
    rw [toList_eq_take, toList_eq_take, Array.toList_setIfInBounds, List.take_add_one,
      List.take_set, List.getElem?_set_self hlt, List.set_eq_of_length_le (List.length_take_le ..)]
    rfl

theorem adjusts_push? (h : s.Valid) {item : α} (hpush : s.push? item = some s') :
    s.Adjusts s' [item] ∧ s'.len = s.len + 1 := by
  rw [push?] at hpush
  split at hpush
  case isTrue => cases hpush
  next hfull =>
    cases hpush
    have hlt : s.len < s.cells.size := by
      have hle := h.len_le
      simp only [isFull, capacity, beq_iff_eq] at hfull hle
      omega
    refine ⟨⟨⟨?_, fun i a hle hi => ?_⟩, by simp [capacity], fun a ha => ?_⟩, rfl⟩
    · simp only [capacity, Array.size_setIfInBounds]
      omega
    · rw [Array.getElem?_setIfInBounds, if_neg (by dsimp only at hle; omega)] at hi
      exact h.unused i a (by dsimp only at hle; omega) hi
    · rw [toList_push? h (if_neg hfull), List.mem_append] at ha
      exact ha.imp_right Or.inl

/-- An element can be added if a cell is left. -/
theorem push?_spec (h : s.Valid) (hroom : s.toList.length < s.capacity) (item : α) :
    ∃ s', s.push? item = some s' ∧ s.Adjusts s' [item] ∧ s'.toList = s.toList ++ [item] := by
  have hpush : s.push? item = some ⟨s.cells.setIfInBounds s.len item, s.len + 1⟩ := by
    rw [h.length_toList] at hroom
    exact if_neg (by simp [isFull]; omega)
  exact ⟨_, hpush, (adjusts_push? h hpush).1, toList_push? h hpush⟩

/-- The last item is popped. -/
theorem toList_pop? (h : s.Valid) {item : α} (hpop : s.pop? = some (item, s')) :
    s.toList = s'.toList ++ [item] := by
  rw [pop?] at hpop
  split at hpop
  case isTrue => cases hpop
  next hpos =>
    have hlt : s.len - 1 < s.cells.size := by
      have hle := h.len_le
      rw [capacity] at hle
      omega
    simp only [Option.some.injEq, Prod.mk.injEq] at hpop
    obtain ⟨rfl, rfl⟩ := hpop
    rw [toList_eq_take, toList_eq_take, Array.toList_setIfInBounds, List.take_set,
      List.set_eq_of_length_le (List.length_take_le ..)]
    conv_lhs => rw [← Nat.sub_one_add_one hpos, List.take_add_one]
    rw [Array.getElem?_toList, Array.getD_eq_getD_getElem?, Array.getElem?_eq_getElem hlt]
    rfl

theorem adjusts_pop? (h : s.Valid) {item : α} (hpop : s.pop? = some (item, s')) :
    s.Adjusts s' [] ∧ item ∈ s.toList := by
  have hlist := toList_pop? h hpop
  rw [pop?] at hpop
  split at hpop
  case isTrue => cases hpop
  next hpos =>
    have hlt : s.len - 1 < s.cells.size := by
      have hle := h.len_le
      rw [capacity] at hle
      omega
    simp only [Option.some.injEq, Prod.mk.injEq] at hpop
    obtain ⟨rfl, rfl⟩ := hpop
    refine ⟨⟨⟨?_, fun i a hle hi => ?_⟩, by simp [capacity], fun a ha => ?_⟩, ?_⟩
    · simp only [capacity, Array.size_setIfInBounds]
      omega
    · rw [Array.getElem?_setIfInBounds] at hi
      split at hi
      next => exact (Option.some.inj hi).symm
      next hne => exact h.unused i a (by dsimp only at hle; omega) hi
    · refine Or.inl ?_
      rw [hlist]
      exact List.mem_append_left _ ha
    · rw [hlist]
      exact List.mem_append_right _ (List.mem_singleton.mpr rfl)

/-- The last element can be taken off if there is one. -/
theorem pop?_cases (h : s.Valid) :
    (s.pop? = none ∧ s.toList = []) ∨
      ∃ item s', s.pop? = some (item, s') ∧ s.Adjusts s' [] ∧ s.toList = s'.toList ++ [item] := by
  cases hpop : s.pop? with
  | none =>
      refine Or.inl ⟨rfl, List.length_eq_zero_iff.mp ?_⟩
      rw [h.length_toList]
      rw [pop?] at hpop
      split at hpop
      next hzero => exact hzero
      next => cases hpop
  | some last =>
      exact Or.inr ⟨last.1, last.2, rfl, (adjusts_pop? h hpop).1, toList_pop? h hpop⟩

theorem size_clear (cells : Array α) (start count : Nat) :
    (clear cells start count).size = cells.size := by
  induction count generalizing cells start with
  | zero => rfl
  | succ count ih => rw [clear, ih, Array.size_setIfInBounds]

/-- Clearing resets the cells of a range and leaves the others. -/
theorem getElem?_clear (cells : Array α) (start count i : Nat) (hi : i < cells.size) :
    (clear cells start count)[i]? =
      if start ≤ i ∧ i < start + count then some default else cells[i]? := by
  induction count generalizing cells start with
  | zero =>
      rw [clear, if_neg (by omega)]
  | succ count ih =>
      rw [clear, ih _ _ (by rwa [Array.size_setIfInBounds]), Array.getElem?_setIfInBounds]
      by_cases hstart : start = i
      · subst hstart
        simp [hi]
      · by_cases hin : start ≤ i ∧ i < start + (count + 1)
        · rw [if_pos hin, if_pos (by omega)]
        · rw [if_neg hin, if_neg (by omega), if_neg hstart]

/-- A new length drops items at the end or adds cleared ones. -/
theorem toList_setLen? (h : s.Valid) {len : Nat} (hset : s.setLen? len = some s') :
    s'.toList = s.toList.take len ++ List.replicate (len - s.toList.length) default := by
  rw [setLen?] at hset
  split at hset
  case isTrue => cases hset
  next hle =>
    cases hset
    have hlength := h.length_toList
    rw [capacity] at hle
    refine List.ext_getElem? fun i => ?_
    rw [toList_eq_take, List.getElem?_take, Array.getElem?_toList]
    dsimp only
    split
    next hi =>
      have hsize : i < s.cells.size := by omega
      rw [getElem?_clear _ _ _ _ hsize, if_neg (by omega)]
      by_cases hin : i < s.len
      · rw [List.getElem?_append_left (by rw [List.length_take]; omega), List.getElem?_take,
          if_pos hi, ← get?_eq, get?, if_pos hin]
      · -- a cell that comes into use has been cleared
        rw [List.getElem?_append_right (by rw [List.length_take]; omega), List.length_take,
          List.getElem?_replicate, if_pos (by omega), Array.getElem?_eq_getElem hsize]
        exact congrArg some (h.unused i _ (by omega) (Array.getElem?_eq_getElem hsize))
    next hi =>
      symm
      rw [List.getElem?_eq_none_iff, List.length_append, List.length_take, List.length_replicate]
      omega

theorem adjusts_setLen? (h : s.Valid) {len : Nat} (hset : s.setLen? len = some s') :
    s.Adjusts s' [] := by
  have hlist := toList_setLen? h hset
  rw [setLen?] at hset
  split at hset
  case isTrue => cases hset
  next hle =>
    cases hset
    refine ⟨⟨?_, fun i a hlen hi => ?_⟩, ?_, fun a ha => ?_⟩
    · simp only [capacity, size_clear] at hle ⊢
      omega
    · have hlt := (Array.getElem?_eq_some_iff.mp hi).1
      rw [size_clear] at hlt
      rw [getElem?_clear _ _ _ _ hlt] at hi
      split at hi
      next => exact (Option.some.inj hi).symm
      next hout => exact h.unused i a (by dsimp only at hlen; omega) hi
    · simp [capacity, size_clear]
    · rw [hlist, List.mem_append] at ha
      rcases ha with hold | hnew
      · exact Or.inl (List.mem_of_mem_take hold)
      · exact Or.inr (Or.inr (List.eq_of_mem_replicate hnew))

/-- The length can be changed within the capacity. -/
theorem setLen?_cases (h : s.Valid) (len : Nat) :
    (s.setLen? len = none ∧ s.capacity < len) ∨
      ∃ s', s.setLen? len = some s' ∧ len ≤ s.capacity ∧ s.Adjusts s' [] ∧
        s'.toList = s.toList.take len ++ List.replicate (len - s.toList.length) default := by
  by_cases hlt : s.capacity < len
  · exact Or.inl ⟨if_pos hlt, hlt⟩
  · have hset : s.setLen? len = some ⟨clear s.cells len (s.len - len), len⟩ := if_neg hlt
    exact Or.inr ⟨_, hset, Nat.le_of_not_lt hlt, adjusts_setLen? h hset, toList_setLen? h hset⟩

/-- A change of each item by its position. -/
theorem toList_mapIdx (h : s.Valid) (change : Nat → α → α) :
    (s.mapIdx change).toList = s.toList.mapIdx change := by
  have hlength : (s.toArray.mapIdx change).toList.length = s.len := by
    rw [Array.length_toList, Array.size_mapIdx, ← Array.length_toList]
    exact h.length_toList
  rw [toList_eq_take, mapIdx, Array.toList_append, ← hlength, List.take_left, Array.toList_mapIdx]
  rfl

theorem adjusts_mapIdx (h : s.Valid) (change : Nat → α → α) :
    s.Adjusts (s.mapIdx change) (s.toList.mapIdx change) := by
  have hlen := h.len_le
  have hsize : s.toArray.size = s.len := by
    rw [← Array.length_toList]
    exact h.length_toList
  have hcapacity : (s.mapIdx change).capacity = s.capacity := by
    rw [capacity, mapIdx, Array.size_append, Array.size_mapIdx, hsize, Array.size_extract]
    rw [capacity] at hlen ⊢
    omega
  refine ⟨⟨hcapacity ▸ hlen, fun i a hle hi => ?_⟩, hcapacity, fun a ha => ?_⟩
  · dsimp only [mapIdx] at hle hi
    rw [Array.getElem?_append_right (by rw [Array.size_mapIdx, hsize]; exact hle),
      Array.size_mapIdx, hsize, Array.getElem?_extract] at hi
    split at hi
    next => exact h.unused (s.len + (i - s.len)) a (Nat.le_add_right _ _) hi
    next => cases hi
  · rw [toList_mapIdx h] at ha
    exact Or.inr (Or.inl ha)

/-- Growing adds cells and keeps the items. -/
theorem grow_spec (h : s.Valid) {capacity : Nat} (hle : s.capacity ≤ capacity) :
    ∃ s', s.grow capacity = .ok s' ∧ s'.Valid ∧ s'.capacity = capacity ∧ s'.len = s.len ∧
      s'.toList = s.toList := by
  have hlen := h.len_le
  have hsize : s.toArray.size = s.len := by
    rw [BoundedSeq.capacity] at hlen
    simp [toArray, hlen]
  refine ⟨⟨s.toArray ++ Array.replicate (capacity - s.len) default, s.len⟩,
    by rw [grow, if_neg (by omega)], ⟨?_, fun i a hi hcell => ?_⟩, ?_, rfl, ?_⟩
  · simp only [BoundedSeq.capacity, Array.size_append, hsize]
    omega
  · dsimp only at hi hcell
    rw [Array.getElem?_append_right (by omega), Array.getElem?_replicate] at hcell
    split at hcell
    · exact (Option.some.inj hcell).symm
    · cases hcell
  · simp only [BoundedSeq.capacity, Array.size_append, hsize, Array.size_replicate]
    omega
  · have hlength : s.toArray.toList.length = s.len := by rw [Array.length_toList, hsize]
    rw [toList_eq_take, Array.toList_append, ← hlength, List.take_left]
    rfl

end BoundedSeq

end ObjectHeap
