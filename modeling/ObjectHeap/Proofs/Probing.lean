import Mathlib.Tactic.Common
import ObjectHeap.ProbeTable

/-! # Probing

A table is *valid* if its counts are right and no empty slot lies between the home of an
entry and the entry itself. In a valid table a search finds an entry if there is one, and
otherwise names a slot in which the table stays valid if the entry is put there. Rehashing
keeps the entries and drops the tombstones.
-/

namespace ObjectHeap

/-- The hash, key and value in a slot, if it is occupied. -/
def Entry.content? : Entry → Option (UInt64 × Value × Value)
  | .occupied hash key value => some (hash, key, value)
  | _ => none

/-- Replacing an element of a list replaces what a filter keeps of it. -/
theorem filterMap_set_perm {α β : Type} (f : α → Option β) {items : List α} {i : Nat} {old : α}
    (h : items[i]? = some old) (new : α) :
    ((f old).toList ++ (items.set i new).filterMap f).Perm
      ((f new).toList ++ items.filterMap f) := by
  induction items generalizing i with
  | nil => simp at h
  | cons head rest ih =>
      cases i with
      | zero =>
          simp only [List.getElem?_cons_zero, Option.some.injEq] at h
          subst h
          rw [List.set_cons_zero]
          cases hold : f head <;> cases hnew : f new <;>
            simp [hold, hnew, List.Perm.swap]
      | succ i =>
          have hrest := ih (i := i) (by simpa using h)
          rw [List.set_cons_succ]
          cases hhead : f head with
          | none => simpa [List.filterMap_cons, hhead] using hrest
          | some kept =>
              rw [List.filterMap_cons_some hhead, List.filterMap_cons_some hhead]
              exact List.perm_middle.trans ((hrest.cons kept).trans List.perm_middle.symm)

/-- The least power of two that is large enough is a power of two. -/
theorem isPowerOfTwo_leastPower (n : Nat) : (leastPower n).isPowerOfTwo := by
  rw [leastPower, Nat.one_shiftLeft]
  split
  · exact Nat.isPowerOfTwo_one
  · exact ⟨_, rfl⟩

theorem le_leastPower (n : Nat) : n ≤ leastPower n := by
  rw [leastPower, Nat.one_shiftLeft]
  split
  next hle => exact hle
  next => exact Nat.le_of_pred_lt Nat.lt_log2_self

/-- No power of two that is large enough is smaller. -/
theorem leastPower_le {n p : Nat} (hp : p.isPowerOfTwo) (hle : n ≤ p) : leastPower n ≤ p := by
  obtain ⟨k, rfl⟩ := hp
  rw [leastPower, Nat.one_shiftLeft]
  split
  next => exact Nat.two_pow_pos k
  next hlt =>
    have hbits : (n - 1).log2 < k := (Nat.log2_lt (by omega)).mpr (by omega)
    exact Nat.pow_le_pow_right (by decide) hbits

theorem leastPower_of_isPowerOfTwo {n : Nat} (h : n.isPowerOfTwo) : leastPower n = n :=
  Nat.le_antisymm (leastPower_le h (Nat.le_refl n)) (le_leastPower n)

theorem leastPower_mono {n m : Nat} (hle : n ≤ m) : leastPower n ≤ leastPower m :=
  leastPower_le (isPowerOfTwo_leastPower m) (Nat.le_trans hle (le_leastPower m))

namespace ProbeTable

/-- The slot that a search for a hash comes to after some steps. -/
def slotAt (t : ProbeTable) (hash : UInt64) (steps : Nat) : Nat :=
  (hash.toNat + steps) % t.capacity

/-- Whether a search for a hash comes to a slot before it meets an empty one. -/
def OnPath (t : ProbeTable) (hash : UInt64) (index : Nat) : Prop :=
  ∃ steps < t.capacity, t.slotAt hash steps = index ∧
    ∀ j < steps, t.entries[t.slotAt hash j]? ≠ some .empty

/-- A table with correct counts in which every entry is on the path of its hash. -/
structure Valid (t : ProbeTable) : Prop where
  capacity_pow : t.capacity.isPowerOfTwo
  size_eq : t.size = t.toList.length
  tombstones_eq : t.tombstones = t.entries.toList.count .deleted
  onPath : ∀ (index : Nat) (hash : UInt64) (key value : Value),
    t.entries[index]? = some (.occupied hash key value) → t.OnPath hash index

theorem Valid.capacity_pos {t : ProbeTable} (h : t.Valid) : 0 < t.capacity :=
  Nat.pos_of_isPowerOfTwo h.capacity_pow

theorem slotAt_zero (t : ProbeTable) (hash : UInt64) : t.slotAt hash 0 = t.home hash := rfl

theorem next_slotAt (t : ProbeTable) (hash : UInt64) (steps : Nat) :
    t.next (t.slotAt hash steps) = t.slotAt hash (steps + 1) := by
  rw [next, slotAt, slotAt, Nat.mod_add_mod, Nat.add_assoc]

/-- A probe stays within the table. -/
theorem slotAt_lt {t : ProbeTable} (hpos : 0 < t.capacity) (hash : UInt64) (steps : Nat) :
    t.slotAt hash steps < t.entries.size :=
  Nat.mod_lt _ hpos

/-- Every slot lies on the way around the table. -/
theorem exists_slotAt {t : ProbeTable} {index : Nat} (hindex : index < t.capacity)
    (hash : UInt64) : ∃ steps < t.capacity, t.slotAt hash steps = index := by
  have hpos : 0 < t.capacity := Nat.lt_of_le_of_lt (Nat.zero_le _) hindex
  refine ⟨(index + (t.capacity - hash.toNat % t.capacity)) % t.capacity, Nat.mod_lt _ hpos, ?_⟩
  have hlt := Nat.mod_lt hash.toNat hpos
  rw [slotAt, Nat.add_mod_mod, ← Nat.mod_add_mod]
  have hsum : hash.toNat % t.capacity + (index + (t.capacity - hash.toNat % t.capacity)) =
      index + t.capacity := by omega
  rw [hsum, Nat.add_mod_right, Nat.mod_eq_of_lt hindex]

theorem toList_eq (t : ProbeTable) : t.toList = t.entries.toList.filterMap Entry.content? := by
  rw [toList]
  congr 1

/-- The items of a table are the contents of its occupied slots. -/
theorem mem_toList {t : ProbeTable} {hash : UInt64} {key value : Value} :
    (hash, key, value) ∈ t.toList ↔
      ∃ index : Nat, t.entries[index]? = some (.occupied hash key value) := by
  rw [toList_eq, List.mem_filterMap]
  constructor
  · rintro ⟨entry, hmem, hentry⟩
    obtain ⟨index, hindex⟩ := List.mem_iff_getElem?.mp hmem
    rw [Array.getElem?_toList] at hindex
    refine ⟨index, ?_⟩
    cases entry with
    | empty => simp [Entry.content?] at hentry
    | deleted => simp [Entry.content?] at hentry
    | occupied =>
        simp only [Entry.content?, Option.some.injEq, Prod.mk.injEq] at hentry
        simp [hindex, hentry]
  · rintro ⟨index, hindex⟩
    rw [← Array.getElem?_toList] at hindex
    exact ⟨_, List.mem_of_getElem? hindex, rfl⟩

/-! ## Searching -/

/-- Whether no entry with a hash has a key that satisfies `same`. -/
def Lacks (t : ProbeTable) (hash : UInt64) (same : Value → Bool) : Prop :=
  ∀ key value, (hash, key, value) ∈ t.toList → same key = false

/-- Whether the answer to a search is right. -/
def Answers (t : ProbeTable) (hash : UInt64) (same : Value → Bool) : Probe → Prop
  | .found index => ∃ key value, t.entries[index]? = some (.occupied hash key value) ∧
      same key = true
  | .vacant index => (t.entries[index]? = some .empty ∨ t.entries[index]? = some .deleted) ∧
      t.OnPath hash index ∧ t.Lacks hash same
  | .full => t.size = t.capacity ∧ t.Lacks hash same

/-- What a search has seen on its first steps: no empty slot and no entry that it looks for,
and the first tombstone if there was one. -/
structure Passed (t : ProbeTable) (hash : UInt64) (same : Value → Bool) (steps : Nat)
    (spare : Option Nat) : Prop where
  not_empty : ∀ j < steps, t.entries[t.slotAt hash j]? ≠ some .empty
  not_same : ∀ j < steps, ∀ key value,
    t.entries[t.slotAt hash j]? = some (.occupied hash key value) → same key = false
  occupied : spare = none → ∀ j < steps, ∃ stored key value,
    t.entries[t.slotAt hash j]? = some (.occupied stored key value)
  spare_deleted : ∀ index, spare = some index → ∃ j < steps, t.slotAt hash j = index ∧
    t.entries[index]? = some .deleted

/-- A search that has gone around the table, or has met an empty slot, has missed nothing. -/
theorem Valid.lacks {t : ProbeTable} (h : t.Valid) {hash : UInt64} {same : Value → Bool}
    {steps : Nat} {spare : Option Nat} (hpassed : t.Passed hash same steps spare)
    (hend : steps = t.capacity ∨ t.entries[t.slotAt hash steps]? = some .empty) :
    t.Lacks hash same := by
  intro key value hmem
  obtain ⟨index, hindex⟩ := mem_toList.mp hmem
  obtain ⟨at', hat, rfl, hpath⟩ := h.onPath index hash key value hindex
  have hlt : at' < steps := by
    rcases hend with rfl | hempty
    · exact hat
    · rcases Nat.lt_trichotomy at' steps with hlt | rfl | hgt
      · exact hlt
      · rw [hindex] at hempty
        cases hempty
      · exact absurd hempty (hpath steps hgt)
  exact hpassed.not_same at' hlt key value hindex

/-- A spare slot that a probe has passed lies on its path. -/
theorem Passed.spare_onPath {t : ProbeTable} {hash : UInt64} {same : Value → Bool} {steps : Nat}
    {spare : Option Nat} (h : t.Passed hash same steps spare) (hle : steps ≤ t.capacity)
    {index : Nat} (hspare : spare = some index) : t.OnPath hash index := by
  obtain ⟨j, hj, hslot, _⟩ := h.spare_deleted index hspare
  exact ⟨j, Nat.lt_of_lt_of_le hj hle, hslot, fun i hi => h.not_empty i (Nat.lt_trans hi hj)⟩

/-- The search passes a deleted slot, which is spare if it is the first one. -/
theorem Passed.deleted {t : ProbeTable} {hash : UInt64} {same : Value → Bool} {steps : Nat}
    {spare : Option Nat} (h : t.Passed hash same steps spare)
    (hget : t.entries[t.slotAt hash steps]? = some .deleted) :
    t.Passed hash same (steps + 1) (spare.or (some (t.slotAt hash steps))) := by
  refine ⟨?_, ?_, ?_, ?_⟩
  · intro j hj
    rcases Nat.lt_succ_iff_lt_or_eq.mp hj with hj | rfl
    · exact h.not_empty j hj
    · simp [hget]
  · intro j hj key value hoccupied
    rcases Nat.lt_succ_iff_lt_or_eq.mp hj with hj | rfl
    · exact h.not_same j hj key value hoccupied
    · simp [hget] at hoccupied
  · intro hnone
    cases spare <;> simp at hnone
  · intro index hindex
    cases hspare : spare with
    | none =>
        rw [hspare] at hindex
        simp only [Option.none_or, Option.some.injEq] at hindex
        exact ⟨steps, Nat.lt_succ_self _, hindex, hindex ▸ hget⟩
    | some first =>
        rw [hspare] at hindex
        simp only [Option.some_or, Option.some.injEq] at hindex
        obtain ⟨j, hj, hslot, hdeleted⟩ := h.spare_deleted first hspare
        exact ⟨j, Nat.lt_succ_of_lt hj, hslot.trans hindex, hindex ▸ hdeleted⟩

/-- The search passes an entry that it does not look for. -/
theorem Passed.other {t : ProbeTable} {hash stored : UInt64} {key value : Value}
    {same : Value → Bool} {steps : Nat} {spare : Option Nat}
    (h : t.Passed hash same steps spare)
    (hget : t.entries[t.slotAt hash steps]? = some (.occupied stored key value))
    (hother : stored = hash → same key = false) : t.Passed hash same (steps + 1) spare := by
  refine ⟨?_, ?_, ?_, ?_⟩
  · intro j hj
    rcases Nat.lt_succ_iff_lt_or_eq.mp hj with hj | rfl
    · exact h.not_empty j hj
    · simp [hget]
  · intro j hj found payload hoccupied
    rcases Nat.lt_succ_iff_lt_or_eq.mp hj with hj | rfl
    · exact h.not_same j hj found payload hoccupied
    · rw [hget] at hoccupied
      cases hoccupied
      exact hother rfl
  · intro hnone j hj
    rcases Nat.lt_succ_iff_lt_or_eq.mp hj with hj | rfl
    · exact h.occupied hnone j hj
    · exact ⟨stored, key, value, hget⟩
  · intro index hindex
    obtain ⟨j, hj, hrest⟩ := h.spare_deleted index hindex
    exact ⟨j, Nat.lt_succ_of_lt hj, hrest⟩

/-- A table around which a search has met occupied slots only is full. -/
theorem Passed.full {t : ProbeTable} {hash : UInt64} {same : Value → Bool}
    (h : t.Passed hash same t.capacity none) (hvalid : t.Valid) : t.size = t.capacity := by
  rw [hvalid.size_eq, toList_eq, capacity, ← Array.length_toList, List.filterMap_length_eq_length]
  intro entry hentry
  obtain ⟨index, hindex, rfl⟩ := Array.mem_iff_getElem.mp (Array.mem_toList_iff.mp hentry)
  obtain ⟨j, hj, hslot⟩ := exists_slotAt hindex hash
  obtain ⟨stored, key, value, hoccupied⟩ := h.occupied rfl j hj
  rw [hslot, Array.getElem?_eq_getElem hindex, Option.some.injEq] at hoccupied
  rw [hoccupied]
  rfl

/-- By induction on the slots left: a probe ends with the key, if the table has it, and else
with a slot for it. -/
theorem probeFrom_spec {t : ProbeTable} (h : t.Valid) {hash : UInt64}
    {test : Value → Except Fault Bool} {same : Value → Bool}
    (htest : ∀ key value, (hash, key, value) ∈ t.toList → test key = .ok (same key))
    (left : Nat) {steps : Nat} {spare : Option Nat} (hsteps : steps + left = t.capacity)
    (hpassed : t.Passed hash same steps spare) :
    ∃ answer, t.probeFrom hash test left (t.slotAt hash steps) spare = .ok answer ∧
      t.Answers hash same answer := by
  induction left generalizing steps spare with
  | zero =>
      have hlacks := h.lacks hpassed (Or.inl hsteps)
      cases spare with
      | some index =>
          obtain ⟨j, _, _, hdeleted⟩ := hpassed.spare_deleted index rfl
          exact ⟨.vacant index, rfl, Or.inr hdeleted,
            hpassed.spare_onPath (Nat.le_of_eq hsteps) rfl, hlacks⟩
      | none =>
          obtain rfl : steps = t.capacity := hsteps
          exact ⟨.full, rfl, hpassed.full h, hlacks⟩
  | succ left ih =>
      have hlt : steps < t.capacity := by omega
      have hnext := next_slotAt t hash steps
      obtain ⟨entry, hget⟩ : ∃ entry, t.entries[t.slotAt hash steps]? = some entry :=
        ⟨_, Array.getElem?_eq_getElem (slotAt_lt h.capacity_pos hash steps)⟩
      cases entry with
      | empty =>
          refine ⟨.vacant (spare.getD (t.slotAt hash steps)), by rw [probeFrom, hget], ?_, ?_,
            h.lacks hpassed (Or.inr hget)⟩
          · cases hspare : spare with
            | none => exact Or.inl hget
            | some index =>
                obtain ⟨_, _, _, hdeleted⟩ := hpassed.spare_deleted index hspare
                exact Or.inr hdeleted
          · cases hspare : spare with
            | none => exact ⟨steps, hlt, rfl, hpassed.not_empty⟩
            | some index => exact hpassed.spare_onPath (Nat.le_of_lt hlt) hspare
      | deleted =>
          obtain ⟨answer, heq, hanswer⟩ := ih (by omega) (hpassed.deleted hget)
          exact ⟨answer, by rw [probeFrom, hget, hnext]; exact heq, hanswer⟩
      | occupied stored key value =>
          by_cases hstored : stored = hash
          · subst hstored
            have hmem : (stored, key, value) ∈ t.toList := mem_toList.mpr ⟨_, hget⟩
            cases hsame : same key with
            | true =>
                refine ⟨.found (t.slotAt stored steps), ?_, key, value, hget, hsame⟩
                rw [probeFrom, hget]
                simp [htest key value hmem, hsame, bind, Except.bind, pure, Except.pure]
            | false =>
                obtain ⟨answer, heq, hanswer⟩ := ih (by omega) (hpassed.other hget fun _ => hsame)
                refine ⟨answer, ?_, hanswer⟩
                rw [probeFrom, hget]
                simp only [↓reduceIte, htest key value hmem, hsame, bind, Except.bind,
                  Bool.false_eq_true, hnext]
                exact heq
          · obtain ⟨answer, heq, hanswer⟩ :=
              ih (by omega) (hpassed.other hget fun hs => absurd hs hstored)
            refine ⟨answer, ?_, hanswer⟩
            rw [probeFrom, hget]
            simp only [hstored, ↓reduceIte, hnext]
            exact heq

/-- A search in a valid table gives a right answer. It tests no key but those stored with the
hash. -/
theorem probe_spec {t : ProbeTable} (h : t.Valid) {hash : UInt64}
    {test : Value → Except Fault Bool} {same : Value → Bool}
    (htest : ∀ key value, (hash, key, value) ∈ t.toList → test key = .ok (same key)) :
    ∃ answer, t.probe hash test = .ok answer ∧ t.Answers hash same answer :=
  probeFrom_spec h htest t.capacity (Nat.zero_add _)
    ⟨by simp, by simp, by simp, by simp⟩

/-- A search that still has an empty slot before it does not go around the table. -/
theorem probeFrom_ne_full {t : ProbeTable} {hash : UInt64} (test : Value → Except Fault Bool)
    (left : Nat) {steps j : Nat} (spare : Option Nat) (hle : steps ≤ j) (hlt : j < steps + left)
    (hempty : t.entries[t.slotAt hash j]? = some .empty) :
    t.probeFrom hash test left (t.slotAt hash steps) spare ≠ .ok .full := by
  induction left generalizing steps spare with
  | zero => omega
  | succ left ih =>
      rw [probeFrom, next_slotAt]
      -- unless the slot at hand is the empty one, the search goes on towards it
      have hrest (spare : Option Nat) (hne : steps ≠ j) :
          t.probeFrom hash test left (t.slotAt hash (steps + 1)) spare ≠ .ok .full :=
        ih spare (by omega) (by omega)
      split
      next => simp
      next => simp
      next hget =>
        refine hrest _ ?_
        rintro rfl
        rw [hget] at hempty
        cases hempty
      next stored key value hget =>
        have hgoes := hrest spare (by rintro rfl; rw [hget] at hempty; cases hempty)
        split
        next =>
          cases test key with
          | error fault => simp [bind, Except.bind]
          | ok same =>
              cases same with
              | true => simp [bind, Except.bind, pure, Except.pure]
              | false => exact hgoes
        next => exact hgoes

/-- A search in a table with an empty slot ends there at the latest. -/
theorem probe_ne_full {t : ProbeTable} {index : Nat} (hempty : t.entries[index]? = some .empty)
    (hash : UInt64) (test : Value → Except Fault Bool) : t.probe hash test ≠ .ok .full := by
  obtain ⟨j, hj, rfl⟩ := exists_slotAt (Array.getElem?_eq_some_iff.mp hempty).1 hash
  exact probeFrom_ne_full test t.capacity none (Nat.zero_le j) (by omega) hempty

/-! ## Changing one slot -/

/-- A path stays one when slots that were not empty stay so. -/
theorem OnPath.mono {t t' : ProbeTable} {hash : UInt64} {index : Nat} (h : t.OnPath hash index)
    (hcapacity : t'.capacity = t.capacity)
    (hempty : ∀ i : Nat, t'.entries[i]? = some .empty → t.entries[i]? = some .empty) :
    t'.OnPath hash index := by
  obtain ⟨steps, hsteps, hslot, hpath⟩ := h
  have hat (j : Nat) : t'.slotAt hash j = t.slotAt hash j := by rw [slotAt, slotAt, hcapacity]
  refine ⟨steps, hcapacity ▸ hsteps, (hat steps).trans hslot, ?_⟩
  intro j hj hfound
  rw [hat] at hfound
  exact hpath j hj (hempty _ hfound)

/-- The table with another entry in a slot and the counts that go with it. -/
def written (t : ProbeTable) (index : Nat) (entry : Entry) (size tombstones : Nat) : ProbeTable :=
  { t with entries := t.entries.setIfInBounds index entry, size, tombstones }

@[simp] theorem capacity_written (t : ProbeTable) (index : Nat) (entry : Entry)
    (size tombstones : Nat) : (t.written index entry size tombstones).capacity = t.capacity := by
  simp [written, capacity]

/-- Writing an entry adds its content and takes away the one that was there. -/
theorem toList_written {t : ProbeTable} {index : Nat} {old : Entry}
    (hold : t.entries[index]? = some old) (new : Entry) (size tombstones : Nat) :
    (old.content?.toList ++ (t.written index new size tombstones).toList).Perm
      (new.content?.toList ++ t.toList) := by
  rw [toList_eq, toList_eq, written, Array.toList_setIfInBounds]
  exact filterMap_set_perm _ (by rwa [Array.getElem?_toList]) new

/-- Writing an entry on the path of its hash, or a tombstone, with matching counts keeps a
table valid. -/
theorem Valid.write {t : ProbeTable} (h : t.Valid) {index : Nat} {old new : Entry}
    (hold : t.entries[index]? = some old) (hnew : new ≠ .empty)
    (hpath : ∀ hash key value, new = .occupied hash key value → t.OnPath hash index)
    {size tombstones : Nat}
    (hsize : size + old.content?.toList.length = t.size + new.content?.toList.length)
    (htombstones : tombstones =
      (t.tombstones - if old = .deleted then 1 else 0) + if new = .deleted then 1 else 0) :
    (t.written index new size tombstones).Valid := by
  have hkept : ∀ i : Nat, (t.written index new size tombstones).entries[i]? = some .empty →
      t.entries[i]? = some .empty := by
    intro i hi
    rw [written, Array.getElem?_setIfInBounds] at hi
    split at hi
    next heq =>
      split at hi
      · exact absurd (Option.some.inj hi) hnew
      · cases hi
    next => exact hi
  refine ⟨by rw [capacity_written]; exact h.capacity_pow, ?_, ?_, ?_⟩
  · have hlength := (toList_written hold new size tombstones).length_eq
    simp only [List.length_append] at hlength
    have := h.size_eq
    change size = _
    omega
  · have hlt : index < t.entries.toList.length := by
      rw [Array.length_toList]
      exact (Array.getElem?_eq_some_iff.mp hold).1
    have hat : t.entries.toList[index] = old := by
      rw [← Array.getElem?_toList] at hold
      exact (List.getElem?_eq_some_iff.mp hold).2
    change tombstones = _
    rw [written, Array.toList_setIfInBounds, List.count_set hlt, hat, htombstones,
      h.tombstones_eq]
    simp only [beq_iff_eq]
  · intro i hash key value hi
    rw [written, Array.getElem?_setIfInBounds] at hi
    split at hi
    next heq =>
      split at hi
      · subst heq
        exact (hpath hash key value (Option.some.inj hi)).mono (capacity_written ..) hkept
      · cases hi
    next =>
      exact (h.onPath i hash key value hi).mono (capacity_written ..) hkept

/-- How a table changes that keeps its number of slots and whether it keeps values. -/
structure Reshapes (t t' : ProbeTable) : Prop where
  valid : t'.Valid
  capacity_eq : t'.capacity = t.capacity
  keepsValues_eq : t'.keepsValues = t.keepsValues

/-- A free slot on the path of a key is occupied by it. -/
theorem occupy_spec {t : ProbeTable} (h : t.Valid) {index : Nat} {hash : UInt64}
    (hfree : t.entries[index]? = some .empty ∨ t.entries[index]? = some .deleted)
    (hpath : t.OnPath hash index) (key value : Value) :
    ∃ t', t.occupy index hash key value = .ok t' ∧ t.Reshapes t' ∧
      t'.toList.Perm ((hash, key, value) :: t.toList) ∧ t'.tombstones ≤ t.tombstones := by
  have hnew (stored : UInt64) (k v : Value) :
      Entry.occupied hash key value = .occupied stored k v → t.OnPath stored index := by
    rintro ⟨⟩
    exact hpath
  rcases hfree with hold | hold
  · refine ⟨t.written index (.occupied hash key value) (t.size + 1) t.tombstones, ?_,
      ⟨h.write hold (by simp) hnew rfl (by simp), capacity_written .., rfl⟩, ?_, Nat.le_refl _⟩
    · simp [occupy, entry, hold, written, bind, Except.bind, pure, Except.pure]
    · exact toList_written hold _ _ _
  · refine ⟨t.written index (.occupied hash key value) (t.size + 1) (t.tombstones - 1), ?_,
      ⟨h.write hold (by simp) hnew rfl (by simp), capacity_written .., rfl⟩, ?_, Nat.sub_le ..⟩
    · simp [occupy, entry, hold, written, bind, Except.bind, pure, Except.pure]
    · exact toList_written hold _ _ _

/-- Only the value of the entry is replaced. -/
theorem replaceValue_spec {t : ProbeTable} (h : t.Valid) {index : Nat} {hash : UInt64}
    {key old : Value} (hold : t.entries[index]? = some (.occupied hash key old)) (value : Value) :
    ∃ t', t.replaceValue index value = .ok t' ∧ t.Reshapes t' ∧
      ((hash, key, old) :: t'.toList).Perm ((hash, key, value) :: t.toList) ∧
      t'.tombstones = t.tombstones := by
  refine ⟨t.written index (.occupied hash key value) t.size t.tombstones, ?_,
    ⟨h.write hold (by simp) ?_ rfl (by simp), capacity_written .., rfl⟩, ?_, rfl⟩
  · simp [replaceValue, entry, hold, written, bind, Except.bind, pure, Except.pure]
  · rintro stored k v ⟨⟩
    exact h.onPath index hash key old hold
  · exact toList_written hold _ _ _

/-- A removed entry is left as a tombstone, so that the slots in use are as many as before. -/
theorem remove_spec {t : ProbeTable} (h : t.Valid) {index : Nat} {hash : UInt64}
    {key value : Value} (hold : t.entries[index]? = some (.occupied hash key value)) :
    ∃ t', t.remove index = .ok (some (key, value), t') ∧ t.Reshapes t' ∧
      t.toList.Perm ((hash, key, value) :: t'.toList) ∧
      t'.size + t'.tombstones = t.size + t.tombstones := by
  have hperm := toList_written hold .deleted (t.size - 1) (t.tombstones + 1)
  have hpos : t.size ≠ 0 := by
    rw [h.size_eq]
    exact Nat.ne_of_gt (List.length_pos_of_mem (mem_toList.mpr ⟨index, hold⟩))
  refine ⟨t.written index .deleted (t.size - 1) (t.tombstones + 1), ?_,
    ⟨h.write hold (by simp) (by simp) ?_ (by simp), capacity_written .., rfl⟩, hperm.symm, ?_⟩
  · simp [remove, entry, hold, written, bind, Except.bind, pure, Except.pure]
  · simp only [Entry.content?, Option.toList_some, Option.toList_none, List.length_cons,
      List.length_nil]
    omega
  · simp only [written]
    omega

/-! ## Rehashing -/

/-- A capacity is rounded up to a power of two, if that fits in 64 bits. -/
theorem powerOfTwo?_eq_some {n slots : Nat} (h : powerOfTwo? n = some slots) :
    slots.isPowerOfTwo ∧ n ≤ slots ∧ slots < span64 := by
  rw [powerOfTwo?] at h
  split at h
  next hlt =>
    cases h
    exact ⟨isPowerOfTwo_leastPower n, le_leastPower n, hlt⟩
  next => cases h

theorem powerOfTwo?_of_isPowerOfTwo {slots : Nat} (hpow : slots.isPowerOfTwo)
    (hlt : slots < span64) : powerOfTwo? slots = some slots := by
  rw [powerOfTwo?, leastPower_of_isPowerOfTwo hpow]
  exact if_pos hlt

theorem withCapacity_eq {slots : Nat} (hpow : slots.isPowerOfTwo) (hlt : slots < span64)
    (keepsValues : Bool) : withCapacity slots keepsValues = .ok (blank slots keepsValues) := by
  rw [withCapacity, powerOfTwo?_of_isPowerOfTwo hpow hlt]

/-- A new table is blank, with its capacity rounded up. -/
theorem eq_blank_of_withCapacity {t : ProbeTable} {capacity : Nat} {keepsValues : Bool}
    (hnew : withCapacity capacity keepsValues = .ok t) :
    ∃ slots, powerOfTwo? capacity = some slots ∧ t = blank slots keepsValues := by
  rw [withCapacity] at hnew
  cases hslots : powerOfTwo? capacity with
  | none => simp [hslots] at hnew
  | some slots =>
      rw [hslots] at hnew
      cases hnew
      exact ⟨slots, rfl, rfl⟩

@[simp] theorem capacity_blank (slots : Nat) (keepsValues : Bool) :
    (blank slots keepsValues).capacity = slots := by
  simp [blank, capacity]

@[simp] theorem toList_blank (slots : Nat) (keepsValues : Bool) :
    (blank slots keepsValues).toList = [] := by
  simp [toList_eq, blank, Entry.content?]

/-- Whether a table has neither entries nor tombstones. -/
structure Unused (t : ProbeTable) : Prop where
  toList_eq : t.toList = []
  tombstones_eq : t.tombstones = 0

theorem unused_blank (slots : Nat) (keepsValues : Bool) : (blank slots keepsValues).Unused :=
  ⟨toList_blank .., rfl⟩

/-- A blank table is valid. -/
theorem valid_blank {slots : Nat} (hpow : slots.isPowerOfTwo) (keepsValues : Bool) :
    (blank slots keepsValues).Valid := by
  refine ⟨by rwa [capacity_blank], by rw [toList_blank]; rfl,
    by simp [blank, List.count_replicate], ?_⟩
  intro index hash key value hindex
  have hmem : (hash, key, value) ∈ (blank slots keepsValues).toList := mem_toList.mpr ⟨_, hindex⟩
  rw [toList_blank] at hmem
  cases hmem

/-- By induction on the slots left: the first empty slot on a path is found, unless there is
none. -/
theorem emptyFrom?_spec {t : ProbeTable} (hash : UInt64) (left : Nat)
    {steps : Nat} (hsteps : steps + left = t.capacity)
    (hpassed : ∀ j < steps, t.entries[t.slotAt hash j]? ≠ some .empty) :
    match t.emptyFrom? left (t.slotAt hash steps) with
    | some index => t.entries[index]? = some .empty ∧ t.OnPath hash index
    | none => ∀ j < t.capacity, t.entries[t.slotAt hash j]? ≠ some .empty := by
  induction left generalizing steps with
  | zero => exact fun j hj => hpassed j (by omega)
  | succ left ih =>
      by_cases hempty : t.entries[t.slotAt hash steps]? = some .empty
      · rw [emptyFrom?, hempty]
        exact ⟨hempty, steps, by omega, rfl, hpassed⟩
      · have hgoOn : t.emptyFrom? (left + 1) (t.slotAt hash steps) =
            t.emptyFrom? left (t.slotAt hash (steps + 1)) := by
          rw [emptyFrom?, next_slotAt]
          split
          next hfound => exact absurd hfound hempty
          next => rfl
        rw [hgoOn]
        refine ih (by omega) fun j hj => ?_
        rcases Nat.lt_succ_iff_lt_or_eq.mp hj with hj | rfl
        · exact hpassed j hj
        · exact hempty

/-- Slots of which none is empty are occupied or deleted. -/
theorem length_eq_of_forall_ne_empty {entries : List Entry}
    (hused : ∀ entry ∈ entries, entry ≠ .empty) :
    entries.length = (entries.filterMap Entry.content?).length + entries.count .deleted := by
  induction entries with
  | nil => rfl
  | cons entry entries ih =>
      have hrest := ih fun other hother => hused other (List.mem_cons_of_mem _ hother)
      rw [List.length_cons, hrest]
      cases entry with
      | empty => exact absurd rfl (hused .empty List.mem_cons_self)
      | deleted => rw [List.filterMap_cons_none rfl, List.count_cons_self, Nat.add_assoc]
      | occupied hash key value =>
          have hcontent : Entry.content? (.occupied hash key value) = some (hash, key, value) := rfl
          rw [List.filterMap_cons_some hcontent, List.length_cons, List.count_cons_of_ne (by simp),
            Nat.add_right_comm]

/-- A table has an empty slot if its entries and tombstones leave one. -/
theorem Valid.exists_empty {t : ProbeTable} (h : t.Valid)
    (hroom : t.size + t.tombstones < t.capacity) :
    ∃ index : Nat, t.entries[index]? = some .empty := by
  by_contra hnone
  have hused : ∀ entry ∈ t.entries.toList, entry ≠ .empty := by
    rintro entry hentry rfl
    obtain ⟨index, hindex⟩ := List.mem_iff_getElem?.mp hentry
    exact hnone ⟨index, by rwa [Array.getElem?_toList] at hindex⟩
  have hlength := length_eq_of_forall_ne_empty hused
  rw [← toList_eq, ← h.size_eq, ← h.tombstones_eq, Array.length_toList] at hlength
  exact absurd hlength (Nat.ne_of_gt hroom)

/-- An entry settles in a table that has no tombstones and a slot to spare. -/
theorem settle_spec {t : ProbeTable} (h : t.Valid) (htombstones : t.tombstones = 0)
    (hroom : t.size < t.capacity) (hash : UInt64) (key value : Value) :
    t.Reshapes (t.settle hash key value) ∧ (t.settle hash key value).tombstones = 0 ∧
      (t.settle hash key value).toList.Perm ((hash, key, value) :: t.toList) := by
  have hfirst := emptyFrom?_spec hash t.capacity (Nat.zero_add _) (by simp)
  rw [slotAt_zero] at hfirst
  rw [settle]
  cases hfound : t.emptyFrom? t.capacity (t.home hash) with
  | none =>
      rw [hfound] at hfirst
      obtain ⟨index, hindex⟩ := h.exists_empty (by omega)
      obtain ⟨j, hj, rfl⟩ := exists_slotAt (Array.getElem?_eq_some_iff.mp hindex).1 hash
      exact absurd hindex (hfirst j hj)
  | some index =>
      rw [hfound] at hfirst
      obtain ⟨hempty, hpath⟩ := hfirst
      have hvalid :
          (t.written index (.occupied hash key value) (t.size + 1) t.tombstones).Valid := by
        refine h.write hempty (by simp) ?_ rfl (by simp)
        rintro stored k v ⟨⟩
        exact hpath
      exact ⟨⟨hvalid, capacity_written .., rfl⟩, htombstones, toList_written hempty _ _ _⟩

/-- The table with entries put one after another into the first empty slot from their home on. -/
def settleAll (t : ProbeTable) (items : List (UInt64 × Value × Value)) : ProbeTable :=
  items.foldl (fun table item => table.settle item.1 item.2.1 item.2.2) t

/-- By induction on the items: all of them settle, if there is room for them. -/
theorem settleAll_spec (items : List (UInt64 × Value × Value)) {t : ProbeTable} (h : t.Valid)
    (htombstones : t.tombstones = 0) (hroom : t.size + items.length < t.capacity) :
    t.Reshapes (t.settleAll items) ∧ (t.settleAll items).tombstones = 0 ∧
      (t.settleAll items).toList.Perm (items ++ t.toList) := by
  induction items generalizing t with
  | nil => exact ⟨⟨h, rfl, rfl⟩, htombstones, List.Perm.refl _⟩
  | cons item rest ih =>
      obtain ⟨hash, key, value⟩ := item
      rw [List.length_cons] at hroom
      obtain ⟨hstep, hnone, hperm⟩ := settle_spec h htombstones (by omega) hash key value
      have hsize : (t.settle hash key value).size = t.size + 1 := by
        rw [hstep.valid.size_eq, hperm.length_eq, h.size_eq, List.length_cons]
      obtain ⟨hrest, hnone', hperm'⟩ := ih hstep.valid hnone (by rw [hstep.capacity_eq]; omega)
      refine ⟨⟨hrest.valid, hrest.capacity_eq.trans hstep.capacity_eq,
        hrest.keepsValues_eq.trans hstep.keepsValues_eq⟩, hnone', ?_⟩
      exact hperm'.trans ((hperm.append_left rest).trans List.perm_middle)

/-- With a slot to spare, a rehash puts the entries into blank slots, whatever the table. -/
theorem rehashed_eq {t : ProbeTable} {capacity slots : Nat}
    (hslots : powerOfTwo? capacity = some slots) (hroom : t.size < slots) :
    t.rehashed capacity = .ok ((blank slots t.keepsValues).settleAll t.toList) := by
  rw [rehashed, withCapacity, hslots]
  simp only [bind, Except.bind, capacity_blank, require, hroom, decide_true, if_true, pure,
    Except.pure]
  rfl

/-- A table with a correct count of its entries, rehashed into enough slots, has the same entries
and no tombstones. -/
theorem rehashed_spec {t : ProbeTable} (hcount : t.size = t.toList.length) {capacity slots : Nat}
    (hslots : powerOfTwo? capacity = some slots) (hroom : t.size < slots) :
    ∃ t', t.rehashed capacity = .ok t' ∧ t'.Valid ∧ t'.capacity = slots ∧
      t'.keepsValues = t.keepsValues ∧ t'.tombstones = 0 ∧ t'.toList.Perm t.toList := by
  have hfresh : (blank slots t.keepsValues).size + t.toList.length <
      (blank slots t.keepsValues).capacity := by
    rw [capacity_blank, ← hcount, blank, Nat.zero_add]
    exact hroom
  obtain ⟨hsettled, htombstones, hperm⟩ := settleAll_spec t.toList
    (valid_blank (powerOfTwo?_eq_some hslots).1 t.keepsValues) rfl hfresh
  refine ⟨_, rehashed_eq hslots hroom, hsettled.valid,
    hsettled.capacity_eq.trans (capacity_blank ..), hsettled.keepsValues_eq, htombstones, ?_⟩
  rwa [toList_blank, List.append_nil] at hperm

/-! ## What a table refers to -/

/-- A table refers to its keys, and to its values if it keeps them. -/
theorem mem_edges {t : ProbeTable} {v : Value} :
    v ∈ t.edges ↔ ∃ hash key value, (hash, key, value) ∈ t.toList ∧
      (v = key ∨ t.keepsValues = true ∧ v = value) := by
  simp only [edges, List.mem_flatMap, Prod.exists]
  constructor
  · rintro ⟨hash, key, value, hmem, hv⟩
    refine ⟨hash, key, value, hmem, ?_⟩
    cases hkeeps : t.keepsValues <;> simp_all
  · rintro ⟨hash, key, value, hmem, hv⟩
    refine ⟨hash, key, value, hmem, ?_⟩
    cases hkeeps : t.keepsValues <;> simp_all

/-- A walk over the slots comes to items only. -/
theorem nextOccupied?_mem {t : ProbeTable} {start index : Nat} {key value : Value}
    (h : t.nextOccupied? start = some (index, key, value)) :
    ∃ hash, (hash, key, value) ∈ t.toList := by
  have hgo (steps at' : Nat) (hfound : nextOccupied?.go t steps at' = some (index, key, value)) :
      ∃ hash, (hash, key, value) ∈ t.toList := by
    fun_induction nextOccupied?.go t steps at' with
    | case1 => cases hfound
    | case2 steps at' hash k v hentry =>
        cases hfound
        exact ⟨hash, mem_toList.mpr ⟨_, hentry⟩⟩
    | case3 steps at' hother ih => exact ih hfound
  exact hgo _ _ h

end ProbeTable

end ObjectHeap
