import Mathlib.Data.Finmap
import ObjectHeap.Proofs.Probing

/-! # Tables as finite maps

A table by itself compares keys by their words and takes hashes from the caller. After any
script of insertions, deletions and rehashes it is a finite map from hashes and words to values:
searches answer by that map, the counts are right, and each binding is stored once. The map has
room for as many bindings as the table has slots, and drops an insertion that finds no room.
-/

namespace ObjectHeap

/-- Whether a slot holds a key. -/
def Entry.isOccupied (entry : Entry) : Bool := entry.content?.isSome

/-- A change of a table. -/
inductive TableEdit where
  | insert (hash : UInt64) (key value : Value)
  | delete (hash : UInt64) (key : Value)
  | rehash (capacity : Nat)

def TableEdit.apply : TableEdit → ProbeTable → Except Fault ProbeTable
  | .insert hash key value, t => do return (← t.insert hash key value).2
  | .delete hash key, t => do return (← t.delete hash key).2.2
  | .rehash capacity, t => t.rehashed capacity

/-- A finite map from hashes and words to values, with room for a number of bindings. -/
structure BoundedMap where
  slots : Nat
  bindings : Finmap fun _ : UInt64 × Value => Value

namespace BoundedMap

def empty (slots : Nat) : BoundedMap := ⟨slots, ∅⟩

def size (m : BoundedMap) : Nat := m.bindings.keys.card

/-- The map after a change. A new binding needs room. -/
def apply (m : BoundedMap) : TableEdit → BoundedMap
  | .insert hash key value =>
    if (hash, key) ∈ m.bindings ∨ m.size < m.slots then
      { m with bindings := m.bindings.insert (hash, key) value }
    else m
  | .delete hash key => { m with bindings := m.bindings.erase (hash, key) }
  | .rehash capacity => { m with slots := leastPower capacity }

/-- Whether a change may be asked for: a rehash needs a slot to spare, and a number of slots that
64 bits can count. -/
def Allows (m : BoundedMap) : TableEdit → Prop
  | .rehash capacity =>
    m.size < leastPower capacity ∧ leastPower capacity < span64
  | _ => True

/-- Whether the changes of a script may be asked for, one after another. -/
def AllowsAll (m : BoundedMap) : List TableEdit → Prop
  | [] => True
  | edit :: rest => m.Allows edit ∧ (m.apply edit).AllowsAll rest

end BoundedMap

namespace ProbeTable

variable {t t' : ProbeTable} {m : BoundedMap}

/-- An entry as a binding. -/
def binding (entry : UInt64 × Value × Value) : (_ : UInt64 × Value) × Value :=
  ⟨(entry.1, entry.2.1), entry.2.2⟩

/-- The bindings that a table stores. -/
def bindings (t : ProbeTable) : Multiset ((_ : UInt64 × Value) × Value) := t.toList.map binding

theorem bindings_of_perm {entries : List (UInt64 × Value × Value)} (h : t.toList.Perm entries) :
    t.bindings = entries.map binding :=
  Multiset.coe_eq_coe.mpr (h.map binding)

/-- A table that stores the bindings of a map, and has as many slots as the map has room. -/
structure Represents (t : ProbeTable) (m : BoundedMap) : Prop where
  valid : t.Valid
  capacity_eq : t.capacity = m.slots
  bindings_eq : t.bindings = m.bindings.entries

/-- The entries of a table are the bindings of the map that it represents. -/
theorem Represents.mem_toList (h : t.Represents m) {hash : UInt64} {key value : Value} :
    (hash, key, value) ∈ t.toList ↔ m.bindings.lookup (hash, key) = some value := by
  rw [Finmap.lookup_eq_some_iff, ← h.bindings_eq, bindings, Multiset.mem_coe, List.mem_map]
  constructor
  · intro hmem
    exact ⟨_, hmem, rfl⟩
  · rintro ⟨⟨stored, k, v⟩, hmem, heq⟩
    cases heq
    exact hmem

theorem Represents.size_eq (h : t.Represents m) : t.size = m.size := by
  have hcard : m.bindings.entries.card = t.toList.length := by
    rw [← h.bindings_eq, bindings, Multiset.coe_card, List.length_map]
  rw [h.valid.size_eq, ← hcard]
  exact (Multiset.card_map _ _).symm

/-- A key is lacking if the map does not bind it. -/
theorem Represents.lacks_iff (h : t.Represents m) (hash : UInt64) (key : Value) :
    t.Lacks hash (· == key) ↔ (hash, key) ∉ m.bindings := by
  rw [← Finmap.lookup_eq_none, Option.eq_none_iff_forall_ne_some]
  constructor
  · intro hlacks value hvalue
    simpa using hlacks key value (h.mem_toList.mpr hvalue)
  · intro hnone stored value hmem
    refine beq_eq_false_iff_ne.mpr ?_
    rintro rfl
    exact hnone value (h.mem_toList.mp hmem)

/-- A search by word ends with the right answer. -/
theorem Valid.probeWord_spec (h : t.Valid) (hash : UInt64) (key : Value) :
    ∃ answer, t.probeWord hash key = .ok answer ∧ t.Answers hash (· == key) answer :=
  probe_spec h fun _ _ _ => rfl

theorem Valid.forall_isOccupied_iff (h : t.Valid) :
    (∀ entry ∈ t.entries, entry.isOccupied = true) ↔ t.size = t.capacity := by
  rw [h.size_eq, capacity, toList_eq, ← Array.length_toList, List.filterMap_length_eq_length]
  simp only [Array.mem_toList_iff, Entry.isOccupied]

/-! ## One change -/

theorem entries_insert (bindings : Finmap fun _ : UInt64 × Value => Value) (hash : UInt64)
    (key value : Value) :
    (bindings.insert (hash, key) value).entries =
      binding (hash, key, value) ::ₘ (bindings.erase (hash, key)).entries :=
  Finmap.induction_on bindings fun _ => rfl

/-- What is bound to a key is one of the bindings, and the others are those of other keys. -/
theorem entries_of_lookup {bindings : Finmap fun _ : UInt64 × Value => Value} {hash : UInt64}
    {key value : Value} (h : bindings.lookup (hash, key) = some value) :
    bindings.entries =
      binding (hash, key, value) ::ₘ (bindings.erase (hash, key)).entries := by
  have hsame : bindings.insert (hash, key) value = bindings := by
    refine Finmap.ext_lookup fun other => ?_
    by_cases hother : other = (hash, key)
    · rw [hother, Finmap.lookup_insert, h]
    · exact Finmap.lookup_insert_of_ne _ hother
  rw [← entries_insert, hsame]

/-- An insertion leads to a table that represents the map with the binding. -/
theorem Represents.insert (h : t.Represents m) (hash : UInt64) (key value : Value) :
    ∃ t', (TableEdit.insert hash key value).apply t = .ok t' ∧
      t'.Represents (m.apply (.insert hash key value)) := by
  obtain ⟨answer, hprobe, hanswers⟩ := h.valid.probeWord_spec hash key
  cases answer with
  | found index =>
      obtain ⟨stored, old, hentry, hsame⟩ := hanswers
      obtain rfl : stored = key := beq_iff_eq.mp hsame
      have hlookup := h.mem_toList.mp (ProbeTable.mem_toList.mpr ⟨index, hentry⟩)
      have hmem : (hash, stored) ∈ m.bindings := Finmap.mem_of_lookup_eq_some hlookup
      obtain ⟨t', hreplace, hreshapes, hperm, _⟩ := replaceValue_spec h.valid hentry value
      refine ⟨t', ?_, ?_⟩
      · simp [TableEdit.apply, ProbeTable.insert, hprobe, hreplace, bind, Except.bind, pure,
          Except.pure]
      · rw [BoundedMap.apply, if_pos (Or.inl hmem)]
        refine ⟨hreshapes.valid, hreshapes.capacity_eq.trans h.capacity_eq, ?_⟩
        have hcons : binding (hash, stored, old) ::ₘ t'.bindings =
            binding (hash, stored, value) ::ₘ t.bindings :=
          Multiset.coe_eq_coe.mpr (hperm.map binding)
        rw [h.bindings_eq, entries_of_lookup hlookup, Multiset.cons_swap] at hcons
        exact ((Multiset.cons_inj_right _).mp hcons).trans (entries_insert _ _ _ _).symm
  | vacant index =>
      obtain ⟨hfree, hpath, hlacks⟩ := hanswers
      have habsent := (h.lacks_iff hash key).mp hlacks
      obtain ⟨t', hoccupy, hreshapes, hperm, _⟩ := occupy_spec h.valid hfree hpath key value
      have hroom : m.size < m.slots := by
        rw [← h.size_eq, ← h.capacity_eq, ← hreshapes.capacity_eq]
        have hle : t'.toList.length ≤ t'.capacity := by
          rw [toList_eq, capacity, ← Array.length_toList]
          exact List.length_filterMap_le _ _
        rw [hperm.length_eq, List.length_cons, ← h.valid.size_eq] at hle
        exact hle
      refine ⟨t', ?_, ?_⟩
      · simp [TableEdit.apply, ProbeTable.insert, hprobe, hoccupy, bind, Except.bind, pure,
          Except.pure]
      · rw [BoundedMap.apply, if_pos (Or.inr hroom)]
        refine ⟨hreshapes.valid, hreshapes.capacity_eq.trans h.capacity_eq, ?_⟩
        rw [bindings_of_perm hperm, List.map_cons, ← Multiset.cons_coe,
          Finmap.entries_insert_of_notMem habsent, ← h.bindings_eq]
        rfl
  | full =>
      obtain ⟨hfull, hlacks⟩ := hanswers
      have habsent := (h.lacks_iff hash key).mp hlacks
      have hnoRoom : ¬ m.size < m.slots := by
        rw [← h.size_eq, ← h.capacity_eq, hfull]
        exact Nat.lt_irrefl _
      refine ⟨t, ?_, ?_⟩
      · simp [TableEdit.apply, ProbeTable.insert, hprobe, bind, Except.bind, pure, Except.pure]
      · rw [BoundedMap.apply, if_neg (not_or.mpr ⟨habsent, hnoRoom⟩)]
        exact h

/-- A deletion leads to a table that represents the map without the binding. -/
theorem Represents.delete (h : t.Represents m) (hash : UInt64) (key : Value) :
    ∃ t', (TableEdit.delete hash key).apply t = .ok t' ∧
      t'.Represents (m.apply (.delete hash key)) := by
  obtain ⟨answer, hprobe, hanswers⟩ := h.valid.probeWord_spec hash key
  -- a search that does not find the key leaves the table, and the map has nothing to erase
  have hmissing (hlacks : t.Lacks hash (· == key)) :
      t.Represents (m.apply (.delete hash key)) := by
    refine ⟨h.valid, h.capacity_eq, h.bindings_eq.trans (congrArg Finmap.entries ?_)⟩
    refine Finmap.ext_lookup fun other => ?_
    by_cases hother : other = (hash, key)
    · have habsent := (h.lacks_iff hash key).mp hlacks
      rw [hother, BoundedMap.apply, Finmap.lookup_erase, Finmap.lookup_eq_none.mpr habsent]
    · exact (Finmap.lookup_erase_ne hother).symm
  cases answer with
  | found index =>
      obtain ⟨stored, value, hentry, hsame⟩ := hanswers
      obtain rfl : stored = key := beq_iff_eq.mp hsame
      have hlookup := h.mem_toList.mp (ProbeTable.mem_toList.mpr ⟨index, hentry⟩)
      obtain ⟨t', hremove, hreshapes, hperm, _⟩ := remove_spec h.valid hentry
      refine ⟨t', ?_, hreshapes.valid, hreshapes.capacity_eq.trans h.capacity_eq, ?_⟩
      · simp [TableEdit.apply, ProbeTable.delete, hprobe, hremove, bind, Except.bind, pure,
          Except.pure]
      · have hcons : binding (hash, stored, value) ::ₘ t'.bindings = t.bindings :=
          (bindings_of_perm hperm).symm
        rw [h.bindings_eq, entries_of_lookup hlookup] at hcons
        exact (Multiset.cons_inj_right _).mp hcons
  | vacant index =>
      refine ⟨t, ?_, hmissing hanswers.2.2⟩
      simp [TableEdit.apply, ProbeTable.delete, hprobe, bind, Except.bind, pure, Except.pure]
  | full =>
      refine ⟨t, ?_, hmissing hanswers.2⟩
      simp [TableEdit.apply, ProbeTable.delete, hprobe, bind, Except.bind, pure, Except.pure]

/-- A rehash leads to a table that represents the same map with another capacity. -/
theorem Represents.rehash (h : t.Represents m) {capacity : Nat}
    (hallows : m.Allows (.rehash capacity)) :
    ∃ t', (TableEdit.rehash capacity).apply t = .ok t' ∧
      t'.Represents (m.apply (.rehash capacity)) := by
  have hslots : powerOfTwo? capacity = some (leastPower capacity) := if_pos hallows.2
  obtain ⟨t', hrehash, hvalid, hcapacity, _, _, hperm⟩ :=
    rehashed_spec h.valid.size_eq hslots (h.size_eq ▸ hallows.1)
  exact ⟨t', hrehash, hvalid, hcapacity, (bindings_of_perm hperm).trans h.bindings_eq⟩

/-- Each change of a table is the same change of the map. -/
theorem Represents.edit (h : t.Represents m) {edit : TableEdit} (hallows : m.Allows edit) :
    ∃ t', edit.apply t = .ok t' ∧ t'.Represents (m.apply edit) := by
  cases edit with
  | insert hash key value => exact h.insert hash key value
  | delete hash key => exact h.delete hash key
  | rehash capacity => exact h.rehash hallows

/-! ## Scripts -/

def edited (t : ProbeTable) (script : List TableEdit) : Except Fault ProbeTable :=
  script.foldlM (fun table edit => edit.apply table) t

/-- By induction on the script: the table represents the map all along. -/
theorem Represents.edits (h : t.Represents m) {script : List TableEdit}
    (hallows : m.AllowsAll script) :
    ∃ t', t.edited script = .ok t' ∧ t'.Represents (script.foldl BoundedMap.apply m) := by
  induction script generalizing t m with
  | nil => exact ⟨t, rfl, h⟩
  | cons edit rest ih =>
      obtain ⟨next, hnext, hrepresents⟩ := h.edit hallows.1
      obtain ⟨t', ht', hrest⟩ := ih hrepresents hallows.2
      refine ⟨t', ?_, hrest⟩
      rw [edited, List.foldlM_cons, hnext]
      exact ht'

theorem represents_withCapacity {capacity : Nat} {keepsValues : Bool}
    (hnew : withCapacity capacity keepsValues = .ok t) :
    t.Represents (.empty (leastPower capacity)) := by
  obtain ⟨slots, hslots, rfl⟩ := eq_blank_of_withCapacity hnew
  obtain ⟨hpow, _, _⟩ := powerOfTwo?_eq_some hslots
  obtain rfl : leastPower capacity = slots := by
    rw [powerOfTwo?] at hslots
    split at hslots
    · exact Option.some.inj hslots
    · cases hslots
  refine ⟨valid_blank hpow keepsValues, capacity_blank .., ?_⟩
  rw [bindings, toList_blank]
  rfl

/-- A probe finds the slot of a key if the map binds it. -/
theorem Represents.probe_iff (h : t.Represents m) (hash : UInt64) (key : Value) :
    ∃ answer, t.probeWord hash key = .ok answer ∧
      ((∃ index, answer = .found index) ↔ (hash, key) ∈ m.bindings) ∧
      (∀ index, answer = .found index → ∃ value, m.bindings.lookup (hash, key) = some value ∧
        t.entries[index]? = some (.occupied hash key value)) ∧
      (∀ index, answer = .vacant index →
        t.entries[index]? = some .empty ∨ t.entries[index]? = some .deleted) ∧
      (answer = .full ↔
        (hash, key) ∉ m.bindings ∧ ∀ entry ∈ t.entries, entry.isOccupied = true) := by
  obtain ⟨answer, hprobe, hanswers⟩ := h.valid.probeWord_spec hash key
  refine ⟨answer, hprobe, ?_⟩
  cases answer with
  | found index =>
      obtain ⟨stored, value, hentry, hsame⟩ := hanswers
      obtain rfl : stored = key := beq_iff_eq.mp hsame
      have hlookup := h.mem_toList.mp (ProbeTable.mem_toList.mpr ⟨index, hentry⟩)
      have hmem : (hash, stored) ∈ m.bindings := Finmap.mem_of_lookup_eq_some hlookup
      refine ⟨iff_of_true ⟨index, rfl⟩ hmem, ?_, by simp, by simp [hmem]⟩
      rintro _ ⟨⟩
      exact ⟨value, hlookup, hentry⟩
  | vacant index =>
      obtain ⟨hfree, _, hlacks⟩ := hanswers
      have habsent := (h.lacks_iff hash key).mp hlacks
      refine ⟨by simp [habsent], by simp, ?_, ?_⟩
      · rintro _ ⟨⟩
        exact hfree
      · refine iff_of_false (by simp) fun ⟨_, hall⟩ => ?_
        rcases hfree with hentry | hentry
        · exact absurd (hall _ (Array.mem_of_getElem? hentry)) (by decide)
        · exact absurd (hall _ (Array.mem_of_getElem? hentry)) (by decide)
  | full =>
      obtain ⟨hfull, hlacks⟩ := hanswers
      have habsent := (h.lacks_iff hash key).mp hlacks
      exact ⟨by simp [habsent], by simp, by simp,
        iff_of_true rfl ⟨habsent, h.valid.forall_isOccupied_iff.mpr hfull⟩⟩

theorem Valid.size_eq_countP (h : t.Valid) :
    t.size = t.entries.toList.countP Entry.isOccupied := by
  rw [h.size_eq, toList_eq, List.length_filterMap_eq_countP]
  rfl

/-- A script of changes that may be asked for runs to its end, and leaves a table that is the
finite map left by the same changes. -/
theorem edited_is_map {capacity : Nat} {keepsValues : Bool} {start : ProbeTable}
    {script : List TableEdit} (hstart : withCapacity capacity keepsValues = .ok start)
    (hallows : (BoundedMap.empty (leastPower capacity)).AllowsAll script) :
    ∃ t, start.edited script = .ok t ∧
      let m := script.foldl BoundedMap.apply (.empty (leastPower capacity))
      (∀ hash key, ∃ answer, t.probeWord hash key = .ok answer ∧
        ((∃ index, answer = .found index) ↔ (hash, key) ∈ m.bindings) ∧
        (∀ index, answer = .found index → ∃ value, m.bindings.lookup (hash, key) = some value ∧
          t.entries[index]? = some (.occupied hash key value)) ∧
        (∀ index, answer = .vacant index →
          t.entries[index]? = some .empty ∨ t.entries[index]? = some .deleted) ∧
        (answer = .full ↔
          (hash, key) ∉ m.bindings ∧ ∀ entry ∈ t.entries, entry.isOccupied = true)) ∧
      t.size = t.entries.toList.countP Entry.isOccupied ∧
      t.tombstones = t.entries.toList.count .deleted ∧
      t.bindings = m.bindings.entries := by
  obtain ⟨t, ht, hrepresents⟩ := (represents_withCapacity hstart).edits hallows
  exact ⟨t, ht, hrepresents.probe_iff, hrepresents.valid.size_eq_countP,
    hrepresents.valid.tombstones_eq, hrepresents.bindings_eq⟩

/-- Two slots, a search that goes around the end, an insertion that finds no room, and a deleted
slot that is filled again before the table grows. -/
def crowdedScript : List TableEdit :=
  [.insert 1 (.ofSlot 0) .nil, .insert 1 (.ofSlot 1) .nil, .insert 1 (.ofSlot 2) .nil,
    .delete 1 (.ofSlot 0), .insert 3 (.ofSlot 2) (.bool true), .rehash 4, .delete 1 (.ofSlot 2)]

theorem allowsAll_crowdedScript : (BoundedMap.empty 2).AllowsAll crowdedScript := by
  have hround : leastPower 4 = 4 := leastPower_of_isPowerOfTwo ⟨2, rfl⟩
  simp only [crowdedScript, BoundedMap.AllowsAll, BoundedMap.Allows, hround]
  decide

theorem edited_is_map_crowded : ∃ start t, withCapacity 2 true = .ok start ∧
    start.edited crowdedScript = .ok t ∧
    t.bindings = {binding (1, .ofSlot 1, .nil), binding (3, .ofSlot 2, .bool true)} := by
  have hpow : (2 : Nat).isPowerOfTwo := ⟨1, rfl⟩
  have hround := leastPower_of_isPowerOfTwo hpow
  have hstart := withCapacity_eq hpow (by decide) true
  have hallows : (BoundedMap.empty (leastPower 2)).AllowsAll crowdedScript := by
    rw [hround]
    exact allowsAll_crowdedScript
  obtain ⟨t, ht, _, _, _, hbindings⟩ := edited_is_map hstart hallows
  refine ⟨_, t, hstart, ht, hbindings.trans ?_⟩
  rw [hround]
  decide

end ProbeTable

end ObjectHeap
