import ObjectHeap.Proofs.Runs

/-! # Equality and hashes in runs

In the heaps of runs where every value that is passed can be decoded, equality of values is an
equivalence relation, and equal keys have equal hashes, whatever the digest.
-/

namespace ObjectHeap.Heap

/-- A value that is inline or refers to a block, and that can be decoded. -/
abbrev Live (h : Heap) (v : Value) : Prop := h.Usable (fun _ => False) v

variable {h : Heap} {a b : Value}

/-- All live values can be read, and so can the values in them. -/
theorem Coherent.legible_live [Digest] (hc : h.Coherent fun _ => False) :
    h.Legible (fun _ => False) h.Live := by
  refine ⟨fun _ hv => hv, fun v hv => ?_, fun v content w hv hcontent hw =>
    hc.members_usable hcontent hw⟩
  have hlooks := number?_looks hv
  cases hnumber : h.number? v with
  | ok n => exact ⟨n, rfl⟩
  | error fault =>
      rw [hnumber] at hlooks
      obtain ⟨_, hfalse, _⟩ := hlooks
      exact hfalse.elim

theorem Reachable.valuesEqual_live [Digest] (hr : h.Reachable fun _ => False)
    (ha : h.Live a) (hb : h.Live b) :
    h.valuesEqual a b = .ok (decide (h.fingerprint a = h.fingerprint b)) :=
  hr.sound.coherent.legible_live.valuesEqual_eq hr.sound.coherent ha hb

theorem Reachable.valuesEqual_iff [Digest] (hr : h.Reachable fun _ => False)
    (ha : h.Live a) (hb : h.Live b) :
    h.valuesEqual a b = .ok true ↔ h.fingerprint a = h.fingerprint b := by
  rw [hr.valuesEqual_live ha hb, Except.ok.injEq, decide_eq_true_iff]

/-! ## A heap to compare in

The frozen set of `(1,)`, and that of `(1.0,)` and `(1,)`. -/

/-- How the sample is made, each block from those before it. -/
def nestedScript : List (List Value × Operation) :=
  [([], .newFloat ⟨0x3ff0000000000000⟩),
   ([Value.ofSlot 0], .newTuple #[Value.ofInline .smallInt 1]),
   ([Value.ofSlot 1], .newTuple #[Value.ofSlot 0]),
   ([Value.ofSlot 2], .newFrozenSet [Value.ofSlot 1]),
   ([Value.ofSlot 3], .newFrozenSet [Value.ofSlot 2, Value.ofSlot 1])]

theorem exists_nested : ∃ h : Heap, h.Reachable (fun _ => False) ∧
    (h.passes (Value.ofSlot 3) = true ∧ h.passes (Value.ofSlot 4) = true) ∧
    (h.hashOf (Value.ofSlot 3)).toBool = true ∧ (h.hashOf (Value.ofSlot 4)).toBool = true ∧
    h.valuesEqual (Value.ofSlot 3) (Value.ofSlot 4) = .ok true := by
  refine exists_reachable_of_script { crampedSettings with heapSize := 1024 } nestedScript ?_
  decide +kernel

/-! ## Hashes -/

/-- Equal values that both have a hash have the same one. -/
theorem Reachable.hashOf_congr [Digest] (hr : h.Reachable fun _ => False)
    (ha : h.Live a) (hb : h.Live b) {x y : UInt64} (hx : h.hashOf a = .ok x)
    (hy : h.hashOf b = .ok y) (hequal : h.valuesEqual a b = .ok true) : x = y := by
  have hsame := hr.sound.coherent.hashOf_eq_of_fingerprint_eq ⟨x, hx⟩ ⟨y, hy⟩ ha hb
    ((hr.valuesEqual_iff ha hb).mp hequal)
  rw [hx, hy] at hsame
  exact Except.ok.inj hsame

theorem hashOf_congr_nested : ∃ (h : Heap) (x y : UInt64),
    h.hashOf (Value.ofSlot 3) = .ok x ∧ h.hashOf (Value.ofSlot 4) = .ok y ∧ x = y := by
  obtain ⟨h, hr, ⟨h3, h4⟩, hx, hy, hequal⟩ := exists_nested
  obtain ⟨x, hx⟩ := keyable_of_toBool hx
  obtain ⟨y, hy⟩ := keyable_of_toBool hy
  exact ⟨h, x, y, hx, hy,
    hr.hashOf_congr (usable_of_passes h3) (usable_of_passes h4) hx hy hequal⟩

/-! ## Equality -/

/-- Any two live values can be compared, and to be equal is an equivalence relation on them. -/
theorem Reachable.valuesEqual_equivalence [Digest] (hr : h.Reachable fun _ => False) :
    (∀ a b, h.Live a → h.Live b → ∃ equal, h.valuesEqual a b = .ok equal) ∧
      Equivalence fun a b : Subtype h.Live => h.valuesEqual a b = .ok true := by
  refine ⟨fun a b ha hb => ⟨_, hr.valuesEqual_live ha hb⟩, fun a => ?_, ?_, ?_⟩
  · exact (hr.valuesEqual_iff a.2 a.2).mpr rfl
  · intro a b hab
    rw [hr.valuesEqual_iff a.2 b.2] at hab
    exact (hr.valuesEqual_iff b.2 a.2).mpr hab.symm
  · intro a b c hab hbc
    rw [hr.valuesEqual_iff a.2 b.2] at hab
    rw [hr.valuesEqual_iff b.2 c.2] at hbc
    exact (hr.valuesEqual_iff a.2 c.2).mpr (hab.trans hbc)

theorem valuesEqual_equivalence_nested : ∃ h : Heap,
    h.valuesEqual (Value.ofSlot 3) (Value.ofSlot 4) = .ok true ∧
      h.valuesEqual (Value.ofSlot 4) (Value.ofSlot 3) = .ok true := by
  obtain ⟨h, hr, ⟨h3, h4⟩, _, _, hequal⟩ := exists_nested
  let a : Subtype h.Live := ⟨Value.ofSlot 3, usable_of_passes h3⟩
  let b : Subtype h.Live := ⟨Value.ofSlot 4, usable_of_passes h4⟩
  have hab : h.valuesEqual a b = .ok true := hequal
  exact ⟨h, hequal, hr.valuesEqual_equivalence.2.symm hab⟩

end ObjectHeap.Heap
