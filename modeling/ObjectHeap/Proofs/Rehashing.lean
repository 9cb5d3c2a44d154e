import ObjectHeap.Proofs.TableScripts

/-! # Rehashing any table

A table may be changed slot by slot, by index, so that an entry stands where no search comes to
it. Its count of entries is right all the same, and that is all that a rehash asks for: the
entries are put anew, each into the first empty slot from its home on, and every one can be found
in the table that results. The search for an empty slot has no bound of its own. It ends because
there are more slots than entries.
-/

namespace ObjectHeap

/-- A change of a table: of one slot by its index, by key, or of all slots. -/
inductive SlotEdit where
  | occupy (index : Nat) (hash : UInt64) (key value : Value)
  | replaceValue (index : Nat) (value : Value)
  | remove (index : Nat)
  | whole (edit : TableEdit)

def SlotEdit.apply : SlotEdit → ProbeTable → Except Fault ProbeTable
  | .occupy index hash key value, t => t.occupy index hash key value
  | .replaceValue index value, t => t.replaceValue index value
  | .remove index, t => do return (← t.remove index).2
  | .whole edit, t => edit.apply t

namespace ProbeTable

variable {t t' : ProbeTable}

/-! ## The count of entries -/

/-- Whether a change has left a correct count of entries, and a set a set. -/
structure Counts (t t' : ProbeTable) : Prop where
  size_eq : t'.size = t'.toList.length
  keepsValues_eq : t'.keepsValues = t.keepsValues

theorem Counts.refl (h : t.size = t.toList.length) : t.Counts t := ⟨h, rfl⟩

theorem entry_eq_ok_iff {index : Nat} {entry : Entry} :
    t.entry index = .ok entry ↔ t.entries[index]? = some entry := by
  rw [ProbeTable.entry]
  cases t.entries[index]? <;> simp

/-- Writing a slot keeps the count of entries right if it is changed along. -/
theorem counts_written (h : t.size = t.toList.length) {index : Nat} {old : Entry}
    (hold : t.entry index = .ok old) (new : Entry) {size : Nat}
    (hsize : size + old.content?.toList.length = t.size + new.content?.toList.length)
    (tombstones : Nat) : t.Counts (t.written index new size tombstones) := by
  refine ⟨?_, rfl⟩
  have hlength := (toList_written (entry_eq_ok_iff.mp hold) new size tombstones).length_eq
  simp only [List.length_append] at hlength
  change size = _
  omega

theorem occupy_counts (h : t.size = t.toList.length) {index : Nat} {hash : UInt64}
    {key value : Value} (hoccupy : t.occupy index hash key value = .ok t') : t.Counts t' := by
  obtain ⟨old, hold, hwrite⟩ := bind_eq_ok_iff.mp hoccupy
  cases old with
  | empty =>
      cases hwrite
      exact counts_written h hold (.occupied hash key value) rfl t.tombstones
  | deleted =>
      cases hwrite
      exact counts_written h hold (.occupied hash key value) rfl (t.tombstones - 1)
  | occupied stored k v => cases hwrite

theorem replaceValue_counts (h : t.size = t.toList.length) {index : Nat} {value : Value}
    (hreplace : t.replaceValue index value = .ok t') : t.Counts t' := by
  obtain ⟨old, hold, hwrite⟩ := bind_eq_ok_iff.mp hreplace
  cases old with
  | empty =>
      cases hwrite
      exact .refl h
  | deleted =>
      cases hwrite
      exact .refl h
  | occupied hash key v =>
      cases hwrite
      exact counts_written h hold (.occupied hash key value) rfl t.tombstones

theorem remove_counts (h : t.size = t.toList.length) {index : Nat}
    {removed : Option (Value × Value)} (hremove : t.remove index = .ok (removed, t')) :
    t.Counts t' := by
  obtain ⟨old, hold, hwrite⟩ := bind_eq_ok_iff.mp hremove
  cases old with
  | empty =>
      cases hwrite
      exact .refl h
  | deleted =>
      cases hwrite
      exact .refl h
  | occupied hash key value =>
      cases hwrite
      have hpos : 0 < t.size := by
        rw [h]
        exact List.length_pos_of_mem (mem_toList.mpr ⟨index, entry_eq_ok_iff.mp hold⟩)
      exact counts_written h hold .deleted (Nat.sub_add_cancel hpos) (t.tombstones + 1)

/-- A rehash succeeds only if there is a slot to spare. -/
theorem exists_slots_of_rehashed {capacity : Nat} (hrehashed : t.rehashed capacity = .ok t') :
    ∃ slots, powerOfTwo? capacity = some slots ∧ t.size < slots := by
  obtain ⟨fresh, hfresh, hrehashed⟩ := bind_eq_ok_iff.mp hrehashed
  obtain ⟨_, hroom, _⟩ := bind_eq_ok_iff.mp hrehashed
  obtain ⟨slots, hslots, rfl⟩ := eq_blank_of_withCapacity hfresh
  rw [require_eq_ok_iff, decide_eq_true_eq, capacity_blank] at hroom
  exact ⟨slots, hslots, hroom⟩

theorem rehashed_counts (h : t.size = t.toList.length) {capacity : Nat}
    (hrehashed : t.rehashed capacity = .ok t') : t.Counts t' := by
  obtain ⟨slots, hslots, hroom⟩ := exists_slots_of_rehashed hrehashed
  obtain ⟨result, hresult, hvalid, _, hkeeps, _⟩ := rehashed_spec h hslots hroom
  cases hresult.symm.trans hrehashed
  exact ⟨hvalid.size_eq, hkeeps⟩

theorem insert_counts (h : t.size = t.toList.length) {hash : UInt64} {key value : Value}
    {answer : Probe} (hinsert : t.insert hash key value = .ok (answer, t')) : t.Counts t' := by
  obtain ⟨found, _, hwrite⟩ := bind_eq_ok_iff.mp hinsert
  cases found with
  | found index =>
      obtain ⟨next, hreplace, hnext⟩ := bind_eq_ok_iff.mp hwrite
      cases hnext
      exact replaceValue_counts h hreplace
  | vacant index =>
      obtain ⟨next, hoccupy, hnext⟩ := bind_eq_ok_iff.mp hwrite
      cases hnext
      exact occupy_counts h hoccupy
  | full =>
      cases hwrite
      exact .refl h

theorem delete_counts (h : t.size = t.toList.length) {hash : UInt64} {key : Value}
    {answer : Probe} {removed : Option (Value × Value)}
    (hdelete : t.delete hash key = .ok (answer, removed, t')) : t.Counts t' := by
  obtain ⟨found, _, hwrite⟩ := bind_eq_ok_iff.mp hdelete
  cases found with
  | found index =>
      obtain ⟨next, hremove, hnext⟩ := bind_eq_ok_iff.mp hwrite
      cases hnext
      exact remove_counts h hremove
  | vacant index =>
      cases hwrite
      exact .refl h
  | full =>
      cases hwrite
      exact .refl h

/-- The count of entries is right after any change, wherever it was made. -/
theorem apply_counts (h : t.size = t.toList.length) {edit : SlotEdit}
    (happly : edit.apply t = .ok t') : t.Counts t' := by
  cases edit with
  | occupy index hash key value => exact occupy_counts h happly
  | replaceValue index value => exact replaceValue_counts h happly
  | remove index =>
      obtain ⟨removed, hremove, hnext⟩ := bind_eq_ok_iff.mp happly
      cases hnext
      exact remove_counts h hremove
  | whole edit =>
      cases edit with
      | insert hash key value =>
          obtain ⟨result, hinsert, hnext⟩ := bind_eq_ok_iff.mp happly
          cases hnext
          exact insert_counts h hinsert
      | delete hash key =>
          obtain ⟨result, hdelete, hnext⟩ := bind_eq_ok_iff.mp happly
          cases hnext
          exact delete_counts h hdelete
      | rehash capacity => exact rehashed_counts h happly

def altered (t : ProbeTable) (script : List SlotEdit) : Except Fault ProbeTable :=
  script.foldlM (fun table edit => edit.apply table) t

theorem altered_counts (h : t.size = t.toList.length) {script : List SlotEdit}
    (haltered : t.altered script = .ok t') : t.Counts t' := by
  induction script generalizing t with
  | nil =>
      cases haltered
      exact .refl h
  | cons edit rest ih =>
      rw [altered, List.foldlM_cons] at haltered
      obtain ⟨next, happly, hrest⟩ := bind_eq_ok_iff.mp haltered
      have hnext := apply_counts h happly
      have hlast := ih hnext.size_eq hrest
      exact ⟨hlast.size_eq, hlast.keepsValues_eq.trans hnext.keepsValues_eq⟩

/-! ## The search for an empty slot -/

/-- A search that goes on from slot to slot, for as long as it takes, and ends at an empty one. -/
inductive Seeks (t : ProbeTable) : (start found : Nat) → Prop where
  | here {index : Nat} : t.entries[index]? = some .empty → Seeks t index index
  | onward {index found : Nat} {entry : Entry} : t.entries[index]? = some entry →
      entry ≠ .empty → Seeks t (t.next index) found → Seeks t index found

/-- A run that puts entries one after another where such a search ends. -/
inductive Settles : ProbeTable → List (UInt64 × Value × Value) → ProbeTable → Prop where
  | done {t : ProbeTable} : Settles t [] t
  | put {t t' : ProbeTable} {hash : UInt64} {key value : Value} {index : Nat}
      {rest : List (UInt64 × Value × Value)} : t.Seeks (t.home hash) index →
      Settles (t.written index (.occupied hash key value) (t.size + 1) t.tombstones) rest t' →
      Settles t ((hash, key, value) :: rest) t'

/-- What a bounded search finds, a search without a bound ends at. -/
theorem seeks_of_emptyFrom? {steps index found : Nat} (hindex : index < t.capacity)
    (hfound : t.emptyFrom? steps index = some found) : t.Seeks index found := by
  induction steps generalizing index with
  | zero => cases hfound
  | succ steps ih =>
      have hget : t.entries[index]? = some t.entries[index] := Array.getElem?_eq_getElem hindex
      by_cases hempty : t.entries[index] = .empty
      · rw [emptyFrom?, hget, hempty] at hfound
        cases hfound
        exact .here (hget.trans (congrArg some hempty))
      · refine .onward hget hempty (ih (Nat.mod_lt _ (Nat.zero_lt_of_lt hindex)) ?_)
        rw [emptyFrom?, hget] at hfound
        split at hfound
        next heq => exact absurd (Option.some.inj heq) hempty
        next => exact hfound

/-- In a table with a slot to spare, the search ends, and the entry is put where it does. -/
theorem settle_seeks (h : t.Valid) (htombstones : t.tombstones = 0) (hroom : t.size < t.capacity)
    (hash : UInt64) (key value : Value) :
    ∃ index, t.Seeks (t.home hash) index ∧ t.settle hash key value =
      t.written index (.occupied hash key value) (t.size + 1) t.tombstones := by
  cases hfound : t.emptyFrom? t.capacity (t.home hash) with
  | none =>
      -- the entry would be left out, but it is among the entries afterwards
      have hperm := (settle_spec h htombstones hroom hash key value).2.2
      rw [settle, hfound] at hperm
      exact absurd hperm.length_eq (Nat.ne_of_lt (Nat.lt_succ_self _))
  | some index =>
      refine ⟨index, seeks_of_emptyFrom? (Nat.mod_lt _ h.capacity_pos) hfound, ?_⟩
      rw [settle, hfound]
      rfl

theorem settles_settleAll {items : List (UInt64 × Value × Value)} (h : t.Valid)
    (htombstones : t.tombstones = 0) (hroom : t.size + items.length < t.capacity) :
    t.Settles items (t.settleAll items) := by
  induction items generalizing t with
  | nil => exact .done
  | cons item rest ih =>
      obtain ⟨hash, key, value⟩ := item
      rw [List.length_cons] at hroom
      obtain ⟨index, hseeks, hwritten⟩ := settle_seeks h htombstones (by omega) hash key value
      obtain ⟨hstep, hnone, _⟩ := settle_spec h htombstones (by omega) hash key value
      have hsize : (t.settle hash key value).size = t.size + 1 := by
        rw [hwritten]
        rfl
      have hrest := ih hstep.valid hnone (by rw [hstep.capacity_eq]; omega)
      refine .put hseeks ?_
      rw [← hwritten]
      exact hrest

/-! ## Rehashing -/

/-- A search in a valid table for an entry that it has ends at one. -/
theorem Valid.probe_found (h : t.Valid) {hash : UInt64} {key value : Value}
    (hmem : (hash, key, value) ∈ t.toList) {same : Value → Bool} (hsame : same key = true) :
    ∃ index k v, t.probe hash (fun k => .ok (same k)) = .ok (.found index) ∧
      t.entries[index]? = some (.occupied hash k v) ∧ same k = true := by
  obtain ⟨answer, hprobe, hanswers⟩ : ∃ answer, t.probe hash (fun k => .ok (same k)) = .ok answer ∧
      t.Answers hash same answer := probe_spec h fun _ _ _ => rfl
  have hpresent : ¬ t.Lacks hash same := fun hlacks => by simp [hlacks key value hmem] at hsame
  cases answer with
  | found index =>
      obtain ⟨k, v, hentry, hk⟩ := hanswers
      exact ⟨index, k, v, hprobe, hentry, hk⟩
  | vacant index => exact absurd hanswers.2.2 hpresent
  | full => exact absurd hanswers.2 hpresent

/-- A table that has been changed in any way, also by index, can be rehashed into any number of
slots that leaves one to spare, once rounded up to a power of two. The search for the slot of each
entry ends. The result has so many slots, no tombstone and the same entries, and it keeps values
as the table did. No empty slot lies between the home of an entry and the entry, so that a search
for any key that it has ends at an entry with that hash and an equal key. -/
theorem altered_rehashed {capacity wanted slots : Nat} {keepsValues : Bool}
    {start : ProbeTable} {script : List SlotEdit}
    (hstart : withCapacity capacity keepsValues = .ok start)
    (hscript : start.altered script = .ok t) (hslots : powerOfTwo? wanted = some slots)
    (hroom : t.size < slots) :
    ∃ t', t.rehashed wanted = .ok t' ∧
      (blank slots keepsValues).Settles t.toList t' ∧
      t'.capacity = slots ∧ t'.tombstones = 0 ∧ .deleted ∉ t'.entries ∧
      t'.keepsValues = t.keepsValues ∧ t'.toList.Perm t.toList ∧ t'.size = t.size ∧
      (∀ (index : Nat) hash key value,
        t'.entries[index]? = some (.occupied hash key value) → t'.OnPath hash index) ∧
      ∀ hash key value, (hash, key, value) ∈ t.toList → ∀ same : Value → Bool,
        same key = true → ∃ index k v,
          t'.probe hash (fun k => .ok (same k)) = .ok (.found index) ∧
          t'.entries[index]? = some (.occupied hash k v) ∧ same k = true := by
  obtain ⟨_, _, rfl⟩ := eq_blank_of_withCapacity hstart
  have hcounts := altered_counts (by rw [toList_blank]; rfl) hscript
  have hkeeps : t.keepsValues = keepsValues := hcounts.keepsValues_eq
  obtain ⟨t', hrehashed, hvalid, hcapacity, hsame, htombstones, hperm⟩ :=
    rehashed_spec hcounts.size_eq hslots hroom
  have hsettles : (blank slots keepsValues).Settles t.toList t' := by
    have hall := rehashed_eq hslots hroom
    rw [hkeeps] at hall
    cases hall.symm.trans hrehashed
    refine settles_settleAll (valid_blank (powerOfTwo?_eq_some hslots).1 _) rfl ?_
    rw [capacity_blank, ← hcounts.size_eq, blank, Nat.zero_add]
    exact hroom
  have hnone : .deleted ∉ t'.entries := by
    rw [← Array.mem_toList_iff, ← List.count_eq_zero, ← hvalid.tombstones_eq, htombstones]
  refine ⟨t', hrehashed, hsettles, hcapacity, htombstones, hnone, hsame, hperm, ?_,
    hvalid.onPath, fun hash key value hmem same hkey => ?_⟩
  · rw [hvalid.size_eq, hperm.length_eq, hcounts.size_eq]
  · exact hvalid.probe_found (hperm.mem_iff.mpr hmem) hkey

/-- Entries put where no search comes to them, and a tombstone. -/
def brokenScript : List SlotEdit :=
  [.occupy 2 0 (.ofSlot 1) .nil, .occupy 3 0 (.ofSlot 2) .nil, .occupy 1 7 (.ofSlot 3) .nil,
    .remove 3, .replaceValue 2 (.bool true)]

/-- The table after that script. -/
def broken : ProbeTable where
  entries := #[.empty, .occupied 7 (.ofSlot 3) .nil, .occupied 0 (.ofSlot 1) (.bool true), .deleted]
  size := 2
  tombstones := 1
  keepsValues := true

theorem altered_brokenScript : (blank 4 true).altered brokenScript = .ok broken := by decide

/-- The first entry is missed by a search before the rehash, and found after it. -/
theorem altered_rehashed_broken : ∃ t' index,
    broken.probeWord 0 (.ofSlot 1) = .ok (.vacant 0) ∧ broken.rehashed 4 = .ok t' ∧
      t'.probeWord 0 (.ofSlot 1) = .ok (.found index) := by
  have hpow : (4 : Nat).isPowerOfTwo := ⟨2, rfl⟩
  have hstart := withCapacity_eq hpow (by decide) true
  have hslots := powerOfTwo?_of_isPowerOfTwo hpow (by decide)
  obtain ⟨t', hrehashed, _, _, _, _, _, _, _, _, hfound⟩ :=
    altered_rehashed hstart altered_brokenScript hslots (by decide)
  obtain ⟨index, _, _, hprobe, _⟩ :=
    hfound 0 (.ofSlot 1) (.bool true) (by decide) (· == .ofSlot 1) (by decide)
  exact ⟨t', index, by decide, hrehashed, hprobe⟩

end ProbeTable

end ObjectHeap
