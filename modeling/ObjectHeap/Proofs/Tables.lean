import ObjectHeap.Mapping
import ObjectHeap.Proofs.Editing
import ObjectHeap.Proofs.Ledger

/-! # Dicts and sets

Insertion, removal and lookup in the table of a block. A search is decided by the stored keys that
are equal to the one looked for. Making room for an entry may collect and may move the block, but
the keys that are held hash and compare as before, so that the search after it finds a vacant slot.
The slots of a table never become fewer, and when they become more it is for its entries, since a
rehash leaves the tombstones behind.
-/

namespace ObjectHeap

namespace ProbeTable

variable {t t' : ProbeTable}

/-- How a table changes in which one slot is written at most, and no tombstone is left. What this
means for the entries is said elsewhere. -/
structure Places (t t' : ProbeTable) : Prop where
  slot : ∃ (index : Nat) (entry : Entry), t'.entries = t.entries.setIfInBounds index entry
  tombstones_le : t'.tombstones ≤ t.tombstones

theorem Places.capacity_eq (h : t.Places t') : t'.capacity = t.capacity := by
  obtain ⟨index, entry, hentries⟩ := h.slot
  rw [capacity, hentries, Array.size_setIfInBounds]
  rfl

/-- Occupying a slot writes that one only. -/
theorem places_of_occupy {index : Nat} {hash : UInt64} {key value : Value}
    (h : t.occupy index hash key value = .ok t') : t.Places t' := by
  unfold occupy at h
  cases hentry : t.entry index with
  | error fault =>
      rw [hentry] at h
      cases h
  | ok entry =>
      rw [hentry] at h
      cases entry with
      | empty =>
          cases h
          exact ⟨⟨_, _, rfl⟩, Nat.le_refl _⟩
      | deleted =>
          cases h
          exact ⟨⟨_, _, rfl⟩, Nat.sub_le _ _⟩
      | occupied => cases h

/-- Replacing a value writes its slot only. -/
theorem places_of_replaceValue {index : Nat} {value : Value} {hash : UInt64} {key old : Value}
    (hold : t.entries[index]? = some (.occupied hash key old))
    (h : t.replaceValue index value = .ok t') : t.Places t' := by
  have hentry : t.entry index = .ok (.occupied hash key old) := by
    rw [entry, hold]
  rw [replaceValue, hentry] at h
  cases h
  exact ⟨⟨_, _, rfl⟩, Nat.le_refl _⟩

/-- How a table changes that gets one entry at most. -/
structure Gains (t t' : ProbeTable) (hash : UInt64) (key value : Value) : Prop where
  reshapes : t.Reshapes t'
  mem : ∀ entry ∈ t'.toList, entry ∈ t.toList ∨ entry = (hash, key, value)
  used_le : t'.size + t'.tombstones ≤ t.size + t.tombstones + 1

/-- A table gains the entry that occupies a slot of its path. -/
theorem gains_occupy (h : t.Valid) {index : Nat} {hash : UInt64}
    (hfree : t.entries[index]? = some .empty ∨ t.entries[index]? = some .deleted)
    (hpath : t.OnPath hash index) (key value : Value) :
    ∃ t', t.occupy index hash key value = .ok t' ∧ t.Gains t' hash key value ∧
      t'.toList.Perm ((hash, key, value) :: t.toList) := by
  obtain ⟨t', hoccupy, hreshapes, hperm, htombstones⟩ := occupy_spec h hfree hpath key value
  refine ⟨t', hoccupy, ⟨hreshapes, fun entry hentry => ?_, ?_⟩, hperm⟩
  · rcases List.mem_cons.mp (hperm.mem_iff.mp hentry) with rfl | hold
    · exact Or.inr rfl
    · exact Or.inl hold
  · have hlength := hperm.length_eq
    rw [List.length_cons, ← hreshapes.valid.size_eq, ← h.size_eq] at hlength
    omega

/-- A table gains the value that takes the place of another. -/
theorem gains_replaceValue (h : t.Valid) {index : Nat} {hash : UInt64} {key old : Value}
    (hold : t.entries[index]? = some (.occupied hash key old)) (value : Value) :
    ∃ t' rest, t.replaceValue index value = .ok t' ∧ t.Gains t' hash key value ∧
      t.toList.Perm ((hash, key, old) :: rest) ∧ t'.toList.Perm ((hash, key, value) :: rest) ∧
      t'.size + t'.tombstones = t.size + t.tombstones := by
  obtain ⟨t', hreplace, hreshapes, hperm, htombstones⟩ := replaceValue_spec h hold value
  obtain ⟨rest, hrest⟩ : ∃ rest, t.toList.Perm ((hash, key, old) :: rest) :=
    ⟨_, List.perm_cons_erase (mem_toList.mpr ⟨index, hold⟩)⟩
  have hused : t'.size + t'.tombstones = t.size + t.tombstones := by
    have hlength := hperm.length_eq
    rw [List.length_cons, List.length_cons, ← hreshapes.valid.size_eq, ← h.size_eq] at hlength
    omega
  refine ⟨t', rest, hreplace, ⟨hreshapes, fun entry hentry => ?_, ?_⟩, hrest, ?_, hused⟩
  · rcases List.mem_cons.mp (hperm.mem_iff.mp (List.mem_cons_of_mem _ hentry)) with rfl | hmem
    · exact Or.inr rfl
    · exact Or.inl hmem
  · exact Nat.le_succ_of_le (Nat.le_of_eq hused)
  · exact ((hperm.trans (hrest.cons _)).trans (List.Perm.swap ..)).cons_inv

/-- A table that gains an entry refers to nothing else that is new. -/
theorem Gains.edges {hash : UInt64} {key value : Value} (h : t.Gains t' hash key value) {v : Value}
    (hv : v ∈ t'.edges) : v ∈ t.edges ∨ v = key ∨ v = value := by
  obtain ⟨stored, k, val, hentry, hv⟩ := mem_edges.mp hv
  rw [h.reshapes.keepsValues_eq] at hv
  rcases h.mem _ hentry with hold | hnew
  · exact Or.inl (mem_edges.mpr ⟨stored, k, val, hold, hv⟩)
  · cases hnew
    exact Or.inr (hv.imp_right And.right)

/-- What making room for one more entry does to a table: it has the same entries and needs no
rehash, and it has other slots than before only if the entries and one more ask for them. -/
structure Widens (s : Settings) (t t' : ProbeTable) : Prop where
  perm : t'.toList.Perm t.toList
  keepsValues_eq : t'.keepsValues = t.keepsValues
  roomy : t'.needsRehash s.loadFactor = false
  grows : t'.capacity = t.capacity ∨ t.capacity < t'.capacity ∧
    capacityFor? (t.size + 1) s.loadFactor s.minHashCapacity = some t'.capacity

/-- What one operation does to the slots of a table: they never become fewer, they become as
many as the entries ask for that the table then has, and the table stays within its load. -/
structure Tends (s : Settings) (t t' : ProbeTable) : Prop where
  keepsValues_eq : t'.keepsValues = t.keepsValues
  grows : t'.capacity = t.capacity ∨ t.capacity < t'.capacity ∧
    capacityFor? t'.size s.loadFactor s.minHashCapacity = some t'.capacity
  within : t.Within s.loadFactor → t'.Within s.loadFactor

/-- A table that is reshaped with as many slots in use stays within its load. -/
theorem Reshapes.tends (h : t.Reshapes t')
    (hused : t'.size + t'.tombstones = t.size + t.tombstones) (s : Settings) : t.Tends s t' := by
  refine ⟨h.keepsValues_eq, Or.inl h.capacity_eq, fun hwithin => ?_⟩
  rwa [Within, hused, h.capacity_eq]

theorem Tends.refl (s : Settings) (t : ProbeTable) : t.Tends s t := ⟨rfl, Or.inl rfl, id⟩

/-- A table that was given room gets one more entry. -/
theorem Widens.tends {s : Settings} (hwidens : t.Widens s t') (hload : s.loadFactor.Fraction)
    (h : t.Valid) {t'' : ProbeTable} {hash : UInt64} {key value : Value}
    (hgains : t'.Gains t'' hash key value)
    (hadded : t''.toList.Perm ((hash, key, value) :: t'.toList)) : t.Tends s t'' := by
  have hcapacity := hgains.reshapes.capacity_eq
  have hsize : t''.size = t.size + 1 := by
    rw [hgains.reshapes.valid.size_eq, hadded.length_eq, List.length_cons, hwidens.perm.length_eq,
      ← h.size_eq]
  refine ⟨hgains.reshapes.keepsValues_eq.trans hwidens.keepsValues_eq, ?_, fun _ => ?_⟩
  · rw [hcapacity, hsize]
    exact hwidens.grows
  · rw [Within, hcapacity]
    exact Nat.le_trans (Nat.mul_le_mul_right _ hgains.used_le)
      ((needsRehash_eq_false_iff hload).mp hwidens.roomy)

/-- A table that is rehashed into the slots that one more entry asks for has room for it. -/
theorem rehashed_widens {s : Settings} (hload : s.loadFactor.Fraction) (h : t.Valid) {slots : Nat}
    (hpow : slots.isPowerOfTwo) (hlt : slots < span64)
    (henough : (t.size + 1) * Binary64.unit ≤ slots * s.loadFactor.magnitude)
    (hgrows : slots = t.capacity ∨ t.capacity < slots ∧
      capacityFor? (t.size + 1) s.loadFactor s.minHashCapacity = some slots) :
    ∃ t', t.rehashed slots = .ok t' ∧ t'.Valid ∧ t'.capacity = slots ∧ t.Widens s t' := by
  have hroom : t.size + 1 < slots := lt_of_mul_unit_le hload (Nat.succ_pos _) henough
  obtain ⟨t', hrehashed, hvalid, rfl, hkeeps, htombstones, hperm⟩ :=
    rehashed_spec h.size_eq (powerOfTwo?_of_isPowerOfTwo hpow hlt) (Nat.lt_of_succ_lt hroom)
  refine ⟨t', hrehashed, hvalid, rfl, hperm, hkeeps, ?_, hgrows⟩
  rw [needsRehash_eq_false_iff hload, htombstones, hvalid.size_eq, hperm.length_eq, ← h.size_eq]
  exact henough

/-- A key that is lacking is lacking in any order of the entries. -/
theorem Lacks.perm {hash : UInt64} {same same' : Value → Bool} (h : t.Lacks hash same)
    (hperm : t'.toList.Perm t.toList)
    (hsame : ∀ key value, (hash, key, value) ∈ t.toList → same' key = same key) :
    t'.Lacks hash same' := by
  intro key value hmem
  have hmem' := hperm.mem_iff.mp hmem
  rw [hsame key value hmem']
  exact h key value hmem'

theorem blockSize_eq (hcapacity : t'.capacity = t.capacity)
    (hkeeps : t'.keepsValues = t.keepsValues) :
    (Body.hash t').blockSize = (Body.hash t).blockSize := by
  simp only [Body.blockSize, Body.payloadSize, hcapacity, hkeeps]

theorem fits_eq (hkeeps : t'.keepsValues = t.keepsValues) (kind : Kind) :
    (Body.hash t').fits kind = (Body.hash t).fits kind := by
  cases kind <;> simp only [Body.fits, hkeeps]

/-- A block has a byte for each slot of its table at least. -/
theorem capacity_le_blockSize (t : ProbeTable) : t.capacity ≤ (Body.hash t).blockSize := by
  simp only [Body.blockSize, Body.payloadSize, Layout.block, Layout.roundUp, Layout.headerSize,
    Layout.countsSize, Layout.entrySize]
  split <;> omega

/-- The size worked out before a table is built is the size that it gets. -/
theorem blockSize_of_hashBlock? {keepsValues : Bool} {slots size : Nat}
    (h : Layout.hashBlock? keepsValues slots = some size) (hslots : t.capacity = slots)
    (hkeeps : t.keepsValues = keepsValues) : (Body.hash t).blockSize = size := by
  subst hslots hkeeps
  exact Body.block_of_countedBlock? h

theorem slots_le_of_hashBlock? {keepsValues : Bool} {slots size : Nat}
    (h : Layout.hashBlock? keepsValues slots = some size) : slots ≤ size := by
  have hle := (blank slots keepsValues).capacity_le_blockSize
  rwa [blockSize_of_hashBlock? h (capacity_blank ..) rfl, capacity_blank] at hle

end ProbeTable

theorem Kind.isHash_of_dict (kind : Kind) (hkind : (kind == .dict) = true) :
    kind.isHash = true := by
  rw [beq_iff_eq.mp hkind]
  rfl

theorem Kind.isHash_of_set (kind : Kind) (hkind : (kind == .set || kind == .frozenSet) = true) :
    kind.isHash = true := by
  rcases Bool.or_eq_true_iff.mp hkind with hkind | hkind
  · rw [beq_iff_eq.mp hkind]
    rfl
  · rw [beq_iff_eq.mp hkind]
    rfl

/-- What fits a kind of table is a table. -/
theorem Body.exists_table {body : Body} {kind : Kind} (hfits : body.fits kind = true)
    (hkind : kind.isHash = true) : ∃ t, body = .hash t := by
  cases body with
  | hash t => exact ⟨t, rfl⟩
  | _ => cases kind <;> simp [fits, Kind.isHash, Kind.shape] at hfits hkind

namespace Heap

variable [Digest] {admits : Value → Prop} {h h' : Heap} {roots starts : List Value} {v : Value}

/-! ## Searches -/

omit [Digest] in
/-- Whether a stored key is equal to the one looked for. -/
def isKey (h : Heap) (key stored : Value) : Bool := h.fingerprint stored = h.fingerprint key

omit [Digest] in
theorem table_eq {slot : Nat} {b : Block} {t : ProbeTable} (hb : h.block? slot = some b)
    (hbody : b.body = .hash t) : h.table slot = .ok t := by
  simp only [table, body_eq hb, hbody]
  rfl

omit [Digest] in
theorem exists_block_of_table {slot : Nat} {t : ProbeTable} (htable : h.table slot = .ok t) :
    ∃ b, h.block? slot = some b ∧ b.body = .hash t := by
  cases hb : h.block? slot with
  | none => simp [table, body, block, hb, bind, Except.bind] at htable
  | some b =>
      refine ⟨b, rfl, ?_⟩
      rw [table, body_eq hb] at htable
      cases hbody : b.body with
      | hash t' =>
          simp only [hbody, bind, Except.bind] at htable
          cases htable
          rfl
      | _ => simp [hbody, bind, Except.bind] at htable

/-- A stored key is usable and has the hash it is stored with. -/
theorem Coherent.stored_key (hc : h.Coherent admits) {slot : Nat} {b : Block} {t : ProbeTable}
    (hb : h.block? slot = some b) (hbody : b.body = .hash t) {hash : UInt64} {key value : Value}
    (hmem : (hash, key, value) ∈ t.toList) : h.hashOf key = .ok hash ∧ h.Usable admits key := by
  refine ⟨(hc.keyed slot b t hb hbody).hashed hash key value hmem,
    hc.edges_usable slot b hb key ?_⟩
  rw [hbody]
  exact ProbeTable.mem_edges.mpr ⟨hash, key, value, hmem, Or.inl rfl⟩

theorem Coherent.stored_value (hc : h.Coherent admits) {slot : Nat} {b : Block} {t : ProbeTable}
    (hb : h.block? slot = some b) (hbody : b.body = .hash t) {hash : UInt64} {key value : Value}
    (hmem : (hash, key, value) ∈ t.toList) : h.Usable admits value := by
  cases hkeeps : t.keepsValues with
  | false =>
      have hvalid := hc.valid slot b hb
      rw [hbody] at hvalid
      rw [hvalid.2 hkeeps hash key value hmem]
      exact usable_nil
  | true =>
      refine hc.edges_usable slot b hb value ?_
      rw [hbody]
      exact ProbeTable.mem_edges.mpr ⟨hash, key, value, hmem, Or.inr ⟨hkeeps, rfl⟩⟩

/-- The keys in a table that survives have the fingerprints that they had. -/
theorem Carries.stored_print {target : Target} (hcarries : h.Carries starts target h')
    (hc : h.Coherent admits) {slot : Nat} {t : ProbeTable} (htable : h.table slot = .ok t)
    (hsurvives : h.Survives starts h' slot) {hash : UInt64} {key value : Value}
    (hmem : (hash, key, value) ∈ t.toList) :
    h'.fingerprint key = h.fingerprint key := by
  obtain ⟨b, hb, hbody⟩ := exists_block_of_table htable
  obtain ⟨hhash, husable⟩ := hc.stored_key hb hbody hmem
  refine hcarries.fingerprint_eq hc husable (fun next hnext => hsurvives.edge hb ?_ hnext)
    ⟨hash, hhash⟩
  rw [hbody]
  exact ProbeTable.mem_edges.mpr ⟨hash, key, value, hmem, Or.inl rfl⟩

/-- A search for a key ends with the right answer. -/
theorem find_spec (hc : h.Coherent admits) {slot : Nat} {b : Block} {t : ProbeTable}
    (hb : h.block? slot = some b) (hbody : b.body = .hash t) {key : Value} {hash : UInt64}
    (hkey : h.hashOf key = .ok hash) (husable : h.Usable admits key) :
    ∃ answer, h.find slot key hash = .ok answer ∧ t.Answers hash (h.isKey key) answer := by
  have hvalid : t.Valid := by
    have hvalid := hc.valid slot b hb
    rw [hbody] at hvalid
    exact hvalid.1
  have htest (stored value : Value) (hmem : (hash, stored, value) ∈ t.toList) :
      h.valuesEqual stored key = .ok (h.isKey key stored) := by
    obtain ⟨hhash, hstored⟩ := hc.stored_key hb hbody hmem
    exact hc.valuesEqual_keys ⟨hash, hhash⟩ ⟨hash, hkey⟩ hstored husable
  obtain ⟨answer, hprobe, hanswers⟩ := ProbeTable.probe_spec hvalid htest
  refine ⟨answer, ?_, hanswers⟩
  simp only [find, table_eq hb hbody]
  exact hprobe

/-- A search that fails has seen all keys with the fingerprint looked for, since these have the
hash looked for. -/
theorem Coherent.ne_of_lacks (hc : h.Coherent admits) {slot : Nat} {b : Block} {t : ProbeTable}
    (hb : h.block? slot = some b) (hbody : b.body = .hash t) {key : Value} {hash : UInt64}
    (hkey : h.hashOf key = .ok hash) (husable : h.Usable admits key)
    (hlacks : t.Lacks hash (h.isKey key)) :
    ∀ entry ∈ t.toList, h.fingerprint entry.2.1 ≠ h.fingerprint key := by
  rintro ⟨stored, k, value⟩ hentry hsame
  obtain ⟨hstored, hk⟩ := hc.stored_key hb hbody hentry
  have hhash := hc.hashOf_eq_of_fingerprint_eq ⟨stored, hstored⟩ ⟨hash, hkey⟩ hk husable hsame
  rw [hstored, hkey] at hhash
  cases hhash
  exact of_decide_eq_false (hlacks k value hentry) hsame

/-! ## Writing a table -/

/-- An entry that a table may have. -/
structure Storable (admits : Value → Prop) (h : Heap) (keepsValues : Bool) (hash : UInt64)
    (key value : Value) : Prop where
  hashed : h.hashOf key = .ok hash
  key_usable : h.Usable admits key
  value_usable : h.Usable admits value
  nil_of_set : keepsValues = false → value = Value.nil

/-- A table may take the place of another if its entries are those of the other, or may be
stored. -/
theorem Accepts.table {kind : Kind} {t t' : ProbeTable} (ha : h.Accepts admits kind (.hash t))
    (hvalid : t'.Valid) (hkeeps : t'.keepsValues = t.keepsValues)
    (hmem : ∀ hash key value, (hash, key, value) ∈ t'.toList → (hash, key, value) ∈ t.toList ∨
      h.Storable admits t.keepsValues hash key value)
    (hdistinct : (t'.toList.map fun entry => h.fingerprint entry.2.1).Nodup) :
    h.Accepts admits kind (.hash t') := by
  refine ⟨(ProbeTable.fits_eq hkeeps kind).trans ha.fits, ⟨hvalid, ?_⟩, fun w hw => ?_, ?_⟩
  · intro hset hash key value hentry
    rw [hkeeps] at hset
    rcases hmem hash key value hentry with hold | hnew
    · exact ha.valid.2 hset hash key value hold
    · exact hnew.nil_of_set hset
  · obtain ⟨hash, key, value, hentry, hw⟩ := ProbeTable.mem_edges.mp hw
    rcases hmem hash key value hentry with hold | hnew
    · exact ha.edges_usable w
        (ProbeTable.mem_edges.mpr ⟨hash, key, value, hold, by rwa [← hkeeps]⟩)
    · rcases hw with rfl | ⟨_, rfl⟩
      · exact hnew.key_usable
      · exact hnew.value_usable
  · rintro table ⟨⟩
    refine ⟨fun hash key value hentry => ?_, hdistinct⟩
    rcases hmem hash key value hentry with hold | hnew
    · exact (ha.keyed t rfl).hashed hash key value hold
    · exact hnew.hashed

/-- Whether the block in a slot may get a new entry: its kind allows changes, or nothing refers
to it, the entry included. -/
def Fillable (h : Heap) (slot : Nat) (kind : Kind) (key value : Value) : Prop :=
  kind.isFrozen = false ∨
    h.Unreferenced slot ∧ key.slot? ≠ some slot ∧ value.slot? ≠ some slot

theorem Coherent.table (hc : h.Coherent admits) {slot : Nat} {b : Block} {t : ProbeTable}
    (hb : h.block? slot = some b) (hbody : b.body = .hash t) :
    h.Accepts admits b.header.kind (.hash t) :=
  hbody ▸ hc.accepts hb

/-- An entry that may be stored can be added to a table. -/
theorem Sound.gain (hs : h.Sound admits 0) {slot : Nat} {b : Block} {t t' : ProbeTable}
    (hb : h.block? slot = some b) (hbody : b.body = .hash t) {hash : UInt64} {key value : Value}
    (hgains : t.Gains t' hash key value)
    (hstorable : h.Storable admits t.keepsValues hash key value)
    (hdistinct : (t'.toList.map fun entry => h.fingerprint entry.2.1).Nodup)
    (hfillable : h.Fillable slot b.header.kind key value) (starts : List Value) :
    h.Edited admits starts slot b.header.kind (.hash t') (h.setBody slot (.hash t')) := by
  have hreshapes := hgains.reshapes
  have ha : h.Accepts admits b.header.kind (.hash t') := by
    refine (hs.coherent.table hb hbody).table hreshapes.valid hreshapes.keepsValues_eq
      (fun stored k value' hentry => ?_) hdistinct
    rcases hgains.mem _ hentry with hold | hnew
    · exact Or.inl hold
    · cases hnew
      exact Or.inr hstorable
  refine hs.setBody hb ha ?_ (hfillable.imp_right fun ⟨hunref, hkey, hvalue⟩ => ⟨hunref, ?_⟩) starts
  · rw [hbody]
    exact ProbeTable.blockSize_eq hreshapes.capacity_eq hreshapes.keepsValues_eq
  · intro w hw
    rcases hgains.edges hw with hold | rfl | rfl
    · exact hunref slot b hb w (by rwa [hbody])
    · exact hkey
    · exact hvalue

/-! ## Insertion -/

omit [Digest] in
/-- The last part of an insertion: a new search, and the entry in the vacant slot it finds. -/
def fillVacant (slot : Nat) (hash : UInt64) (key value : Value) : HeapM Unit := do
  let h ← get
  match ← h.find slot key hash with
  | .vacant index =>
    set (h.setBody slot (.hash (← (← h.table slot).occupy index hash key value)))
  | _ => throw (.fault .misfit)

/-- A search for a key that is not there ends with a vacant slot, if there is one to spare. -/
theorem find_vacant (hc : h.Coherent admits) {slot : Nat} {b : Block} {t : ProbeTable}
    (hb : h.block? slot = some b) (hbody : b.body = .hash t) {key : Value} {hash : UInt64}
    (hkey : h.hashOf key = .ok hash) (husable : h.Usable admits key)
    (hlacks : t.Lacks hash (h.isKey key)) (hroom : t.size < t.capacity) :
    ∃ index, h.find slot key hash = .ok (.vacant index) ∧
      t.Answers hash (h.isKey key) (.vacant index) := by
  obtain ⟨answer, hfind, hanswers⟩ := find_spec hc hb hbody hkey husable
  cases answer with
  | found index =>
      obtain ⟨stored, old, hentry, hsame⟩ := hanswers
      rw [hlacks stored old (ProbeTable.mem_toList.mpr ⟨index, hentry⟩)] at hsame
      cases hsame
  | full => exact absurd hanswers.1 (Nat.ne_of_lt hroom)
  | vacant index => exact ⟨index, hfind, hanswers⟩

/-- A table with a slot to spare that lacks a key can take it. -/
theorem fillVacant_yields (hs : h.Sound admits 0) {slot : Nat} {b : Block} {t : ProbeTable}
    (hb : h.block? slot = some b) (hbody : b.body = .hash t) {hash : UInt64} {key value : Value}
    (hkey : h.hashOf key = .ok hash) (husable : h.Usable admits key)
    (hlacks : t.Lacks hash (h.isKey key)) (hroom : t.size < t.capacity) {among : Value → Prop}
    {R : Refusal → Heap → Prop} :
    Yields among (fillVacant slot hash key value) h
      (fun _ h' => ∃ t', t.Gains t' hash key value ∧ t.Places t' ∧
        t'.toList.Perm ((hash, key, value) :: t.toList) ∧ h' = h.setBody slot (.hash t')) R := by
  obtain ⟨index, hfind, hfree, hpath, _⟩ :=
    find_vacant hs.coherent hb hbody hkey husable hlacks hroom
  obtain ⟨t', hoccupy, hgains, hperm⟩ := ProbeTable.gains_occupy
    (hs.coherent.table hb hbody).valid.1 hfree hpath key value
  exact Yields.get (Yields.look_eq hfind (Yields.look_eq (table_eq hb hbody)
    (Yields.look_eq hoccupy (Yields.set
      ⟨t', hgains, ProbeTable.places_of_occupy hoccupy, hperm, rfl⟩))))

/-- An insertion replaces the value of an equal key, or makes room and fills a vacant slot. -/
theorem hashInsert_yields (hs : h.Sound admits 0) {slot : Nat} {b : Block} {t : ProbeTable}
    (hb : h.block? slot = some b) (hbody : b.body = .hash t) {hash : UInt64} {key value : Value}
    (hkey : h.hashOf key = .ok hash) (husable : h.Usable admits key)
    {among : Value → Prop} {Q : Unit → Heap → Prop} {R : Refusal → Heap → Prop}
    (hfound : ∀ stored old t', (hash, stored, old) ∈ t.toList →
      h.fingerprint stored = h.fingerprint key → t.Gains t' hash stored value → t.Places t' →
      t'.size + t'.tombstones = t.size + t.tombstones →
      ProbeTable.Binds h.fingerprint hash key value t t' → Q () (h.setBody slot (.hash t')))
    (hmissing : t.Lacks hash (h.isKey key) → Yields among (do
      reserveSlot roots slot [key, value]
      fillVacant slot hash key value) h Q R) :
    Yields among (hashInsert roots slot key value) h Q R := by
  obtain ⟨answer, hfind, hanswers⟩ := find_spec hs.coherent hb hbody hkey husable
  refine Yields.get (Yields.read_eq hkey (Yields.look_eq hfind ?_))
  cases answer with
  | found index =>
      obtain ⟨stored, old, hentry, hsame⟩ := hanswers
      obtain ⟨t', rest, hreplace, hgains, hbefore, hafter, hused⟩ :=
        ProbeTable.gains_replaceValue (hs.coherent.table hb hbody).valid.1 hentry value
      have hsame := of_decide_eq_true hsame
      exact Yields.look_eq (table_eq hb hbody) (Yields.look_eq hreplace
        (Yields.set (hfound stored old t' (ProbeTable.mem_toList.mpr ⟨index, hentry⟩) hsame hgains
          (ProbeTable.places_of_replaceValue hentry hreplace) hused
          (.replaced hsame hbefore hafter))))
  | full => exact hmissing hanswers.2
  | vacant index => exact hmissing hanswers.2.2

/-! ## Making room -/

omit [Digest] in
/-- No block is larger than the heap. -/
theorem Consistent.blockSize_le (hc : h.Consistent 0) {slot : Nat} {b : Block}
    (hb : h.block? slot = some b) : b.body.blockSize ≤ h.settings.heapSize := by
  have hproper := hc.proper slot b hb
  have hlen := hproper.le_len
  have hstop := (Sweep.extent_apart ((add_assoc _ _ _).symm.trans hc.tiles)
    (block?_eq_some_iff.mp hb) (by omega)).1
  rw [← hproper.size_eq, Header.size]
  exact Nat.le_trans (Nat.le_add_left _ _) hstop

theorem Edited.refl (hs : h.Sound admits 0) {slot : Nat} {b : Block} {body : Body}
    (hb : h.block? slot = some b) (hbody : b.body = body) (starts : List Value) :
    h.Edited admits starts slot b.header.kind body h :=
  ⟨hs, rfl, rfl, rfl, Nat.le_refl _, ⟨b, hb, rfl, hbody⟩,
    fun _ _ hb₀ hb' => by cases hb₀.symm.trans hb'; rfl, Or.inl rfl,
    fun _ _ _ => ⟨fun hblock => ⟨hblock, Or.inl rfl⟩, And.left⟩⟩

/-- A table that needs no rehash has room as it is. -/
theorem reserveSlot_roomy (hs : h.Sound admits 0) {slot : Nat} {b : Block} {t : ProbeTable}
    (hb : h.block? slot = some b) (hbody : b.body = .hash t)
    (hroomy : t.needsRehash h.settings.loadFactor = false) (operands : List Value)
    {among : Value → Prop} {R : Refusal → Heap → Prop} :
    Yields among (reserveSlot roots slot operands) h
      (fun _ h' => h' = h ∧ t.size < t.capacity) R := by
  have hload := Settings.fraction_of_flaw? hs.consistent.settings_ok
  have hroom := ProbeTable.room_of_needsRehash hload hroomy
  refine Yields.get (Yields.look_eq (table_eq hb hbody) ?_)
  rw [hroomy]
  exact Yields.pure ⟨rfl, by omega⟩

/-- Room can be made in a table that may change, or there is no memory for it. -/
theorem reserveSlot_yields (hs : h.Sound admits 0) (hroots : ∀ w ∈ roots, h.Usable admits w)
    {slot : Nat} {b : Block} {t : ProbeTable} (hb : h.block? slot = some b)
    (hbody : b.body = .hash t) (hfrozen : b.header.kind.isFrozen = false) {operands : List Value}
    (hoperands : ∀ w ∈ operands, h.Usable admits w) :
    Yields admits (reserveSlot roots slot operands) h
      (fun _ h' => ∃ t', t.Widens h.settings t' ∧
        h.Edited admits (roots ++ Value.ofSlot slot :: operands) slot b.header.kind (.hash t') h')
      (h.Declined admits (roots ++ Value.ofSlot slot :: operands)) := by
  cases hneeds : t.needsRehash h.settings.loadFactor with
  | false =>
      refine (reserveSlot_roomy hs hb hbody hneeds operands).mono (fun _ h' hroomy => ?_)
        fun _ _ hd => hd
      obtain ⟨rfl, _⟩ := hroomy
      exact ⟨t, ⟨List.Perm.refl _, rfl, hneeds, Or.inl rfl⟩, Edited.refl hs hb hbody _⟩
  | true =>
      have hload := Settings.fraction_of_flaw? hs.consistent.settings_ok
      have hheap : h.settings.heapSize < 2 ^ 52 :=
        Nat.lt_trans hs.consistent.heapSize_lt (by decide)
      have hold := hs.coherent.table hb hbody
      -- a rehash permutes the entries, so the block accepts what it gives
      have haccepts {t' : ProbeTable} (hvalid : t'.Valid) (hwidens : t.Widens h.settings t') :
          h.Accepts admits b.header.kind (.hash t') :=
        hold.table hvalid hwidens.keepsValues_eq
          (fun hash key value hmem => Or.inl (hwidens.perm.mem_iff.mp hmem))
          ((hwidens.perm.map _).nodup_iff.mpr (hold.keyed t rfl).distinct)
      refine Yields.get (Yields.look_eq (table_eq hb hbody) ?_)
      rw [hneeds]
      cases hcapacity : ProbeTable.capacityFor? (t.size + 1) h.settings.loadFactor
          h.settings.minHashCapacity with
      | none =>
          -- no number of slots would do, and nothing has been touched
          exact Yields.read (checkSize_gives h none) (Declined.refl hs _) fun _ hnone =>
            nomatch hnone.1
      | some enough =>
          obtain ⟨hpow, hlt, henough⟩ := ProbeTable.capacityFor?_spec hload hcapacity
          dsimp only
          split
          · exact absurd ‹_› (by decide)
          split
          next hsame =>
            -- dropping the tombstones is enough
            have hle : enough ≤ t.capacity := by omega
            have hsize := hs.consistent.blockSize_le hb
            have htable := t.capacity_le_blockSize
            rw [hbody] at hsize
            obtain ⟨t', hrehashed, hvalid', hcapacity', hwidens⟩ :=
              ProbeTable.rehashed_widens hload hold.valid.1 hold.valid.1.capacity_pow
                (by rw [span64]; omega)
                (Nat.le_trans (henough (by omega)) (Nat.mul_le_mul_right _ hle)) (Or.inl rfl)
            rw [hsame]
            refine Yields.look_eq hrehashed (Yields.set ⟨t', hwidens, ?_⟩)
            refine hs.setBody hb (haccepts hvalid' hwidens) ?_ (Or.inl hfrozen) _
            rw [hbody]
            exact ProbeTable.blockSize_eq hcapacity' hwidens.keepsValues_eq
          next hmore =>
            -- the table moves to a larger extent
            have hmax : max enough t.capacity = enough := by omega
            rw [hmax]
            refine Yields.read (checkSize_gives h _) (Declined.refl hs _) fun size hsize => ?_
            obtain ⟨hblock, hsize⟩ := hsize
            have hslots := ProbeTable.slots_le_of_hashBlock? hblock
            obtain ⟨t', hrehashed, hvalid', hcapacity', hwidens⟩ :=
              ProbeTable.rehashed_widens hload hold.valid.1 hpow hlt (henough (by omega))
                (Or.inr ⟨by omega, hcapacity⟩)
            refine (resize_yields hs hb hroots hoperands ?_
              (ProbeTable.blockSize_of_hashBlock? hblock hcapacity' hwidens.keepsValues_eq)
              (haccepts hvalid' hwidens) (fun w hw => ?_) hfrozen).mono
              (fun _ h' he => ⟨t', hwidens, he⟩) fun _ _ hd => hd.2
            · rw [hbody]
              exact congrArg (Body.hash <$> ·) hrehashed
            · obtain ⟨hash, key, value, hmem, hw⟩ := ProbeTable.mem_edges.mp hw
              rw [hbody]
              exact ProbeTable.mem_edges.mpr ⟨hash, key, value, hwidens.perm.mem_iff.mp hmem,
                by rwa [← hwidens.keepsValues_eq]⟩

/-- A table that is edited stays a table. -/
theorem Edited.allows_table {slot : Nat} {b : Block} {t t' : ProbeTable} {h' : Heap}
    (he : h.Edited admits starts slot b.header.kind (.hash t') h') (hc : h.Coherent admits)
    (hslot : v.slot? = some slot) (hb : h.block? slot = some b) (hbody : b.body = .hash t)
    (hfrozen : b.header.kind.isFrozen = false) (b' : Block) (hb' : h'.block? slot = some b') :
    (Target.table v).Allows slot b b' := by
  obtain ⟨found, hfound, _, hbody'⟩ := he.block
  cases hb'.symm.trans hfound
  exact Target.allows_table hslot (he.alike hc hb hfrozen hb') (by rw [hbody', hbody]; rfl)

/-- What is held stays as it is when a table is edited. -/
theorem Edited.carries_table {slot : Nat} {b : Block} {t t' : ProbeTable} {h' : Heap}
    (he : h.Edited admits starts slot b.header.kind (.hash t') h') (hs : h.Sound admits 0)
    (hb : h.block? slot = some b) (hbody : b.body = .hash t)
    (hfrozen : b.header.kind.isFrozen = false) :
    h.Carries starts (.table (Value.ofSlot slot)) h' := by
  have hlt := Nat.lt_trans (lt_size_of_block? hb) hs.consistent.size_lt
  exact he.carries hb (he.allows_table hs.coherent (Value.slot?_ofSlot hlt) hb hbody hfrozen)

/-- A key that is not in a table is not in it either once it has been given room, which may
collect. The stored keys are held by the table, so they compare to the new one as before. -/
theorem Edited.lacks {slot : Nat} {b : Block} {t t' : ProbeTable} {h' : Heap}
    (he : h.Edited admits starts slot b.header.kind (.hash t') h') (hs : h.Sound admits 0)
    (hb : h.block? slot = some b) (hbody : b.body = .hash t)
    (hfrozen : b.header.kind.isFrozen = false) (hperm : t'.toList.Perm t.toList) {key : Value}
    {hash : UInt64} (hkey : h.hashOf key = .ok hash) (husable : h.Usable admits key)
    (hstart : key ∈ starts) (hlacks : t.Lacks hash (h.isKey key)) :
    h'.hashOf key = .ok hash ∧ h'.Usable admits key ∧ t'.Lacks hash (h'.isKey key) := by
  have hcarries := he.carries_table hs hb hbody hfrozen
  have hheld (s : Nat) (hs : key.slot? = some s) : h.Survives starts h' s :=
    Or.inr (.start hstart hs)
  refine ⟨(hcarries.hashOf_eq hs.coherent husable hheld).trans hkey,
    hcarries.usable husable hheld, hlacks.perm hperm fun stored old hmem => ?_⟩
  rw [isKey, isKey, hcarries.stored_print hs.coherent (table_eq hb hbody) he.survives hmem,
    hcarries.fingerprint_eq hs.coherent husable hheld ⟨hash, hkey⟩]

/-- An entry that may be stored can be inserted into a table that may change, or there is no
memory for it. -/
theorem hashInsert_edits (hs : h.Sound admits 0) (hroots : ∀ w ∈ roots, h.Usable admits w)
    {slot : Nat} {b : Block} {t : ProbeTable} (hb : h.block? slot = some b)
    (hbody : b.body = .hash t) (hfrozen : b.header.kind.isFrozen = false) {hash : UInt64}
    {key value : Value} (hstorable : h.Storable admits t.keepsValues hash key value) :
    Yields admits (hashInsert roots slot key value) h
      (fun _ h' => ∃ t', ProbeTable.Binds h.fingerprint hash key value t t' ∧
        t.Tends h.settings t' ∧ h.Edited admits (roots ++ Value.ofSlot slot :: [key, value])
          slot b.header.kind (.hash t') h')
      (h.Declined admits (roots ++ Value.ofSlot slot :: [key, value])) := by
  have hkey := hstorable.hashed
  have husable := hstorable.key_usable
  have hoperands : ∀ w ∈ [key, value], h.Usable admits w := by
    simp [husable, hstorable.value_usable]
  have hdistinct := ((hs.coherent.table hb hbody).keyed t rfl).distinct
  refine hashInsert_yields hs hb hbody hkey husable
    (fun stored old t' hmem _ hgains _ hused hbinds => ?_) fun hlacks => ?_
  · -- the key is there, and keeps its place
    obtain ⟨hstored, hstoredusable⟩ := hs.coherent.stored_key hb hbody hmem
    exact ⟨t', hbinds, hgains.reshapes.tends hused _, hs.gain hb hbody hgains
      ⟨hstored, hstoredusable, hstorable.value_usable, hstorable.nil_of_set⟩
      (hbinds.nodup hdistinct) (Or.inl hfrozen) _⟩
  · -- the key is new, and making room for it may collect
    refine Yields.bind (reserveSlot_yields hs hroots hb hbody hfrozen hoperands)
      fun _ h' hroomy => ?_
    obtain ⟨t', hwidens, he⟩ := hroomy
    have hperm := hwidens.perm
    have hload := Settings.fraction_of_flaw? hs.consistent.settings_ok
    have hroom := ProbeTable.room_of_needsRehash hload hwidens.roomy
    obtain ⟨b', hb', hkind, hbody'⟩ := he.block
    have hstart : ∀ w ∈ [key, value], w ∈ roots ++ Value.ofSlot slot :: [key, value] :=
      fun w hw => List.mem_append_right _ (List.mem_cons_of_mem _ hw)
    obtain ⟨hkey', hkeyusable', hlacks'⟩ := he.lacks hs hb hbody hfrozen hperm hkey husable
      (hstart key (List.mem_cons_self ..)) hlacks
    have hvalueusable' : h'.Usable admits value :=
      he.usable hstorable.value_usable (holds_of_mem (hstart value (by simp)))
    refine (fillVacant_yields he.sound hb' hbody' hkey' hkeyusable' hlacks' (by omega)).mono
      (fun _ h'' hfilled => ?_) fun _ _ hd => hd
    obtain ⟨t'', hgains, _, hadded, rfl⟩ := hfilled
    have hstorable' : h'.Storable admits t'.keepsValues hash key value :=
      ⟨hkey', hkeyusable', hvalueusable', hwidens.keepsValues_eq ▸ hstorable.nil_of_set⟩
    have hfresh := hs.coherent.ne_of_lacks hb hbody hkey husable hlacks
    have hbinds' : ProbeTable.Binds h'.fingerprint hash key value t' t'' :=
      .added (he.sound.coherent.ne_of_lacks hb' hbody' hkey' hkeyusable' hlacks') hadded
    have he' := he.sound.gain hb' hbody' hgains hstorable'
      (hbinds'.nodup ((he.sound.coherent.table hb' hbody').keyed t' rfl).distinct)
      (Or.inl (hkind ▸ hfrozen)) (roots ++ Value.ofSlot slot :: [key, value])
    rw [hkind] at he'
    have htends := hwidens.tends hload (hs.coherent.table hb hbody).valid.1 hgains hadded
    exact ⟨t'', .added hfresh (hadded.trans (hperm.cons _)), htends,
      he.trans he' rfl fun s hne => block?_setBody_other hne _⟩

/-- Whether a value has been stored under a key in the table in a slot. -/
def Stores (h : Heap) (slot : Nat) (key value : Value) (h' : Heap) : Prop :=
  ∃ hash t t', h.hashOf key = .ok hash ∧ h.table slot = .ok t ∧ h'.table slot = .ok t' ∧
    ProbeTable.Binds h.fingerprint hash key value t t' ∧ t.Tends h.settings t'

/-- An insertion into the table of a value that may change. -/
theorem hashInsert_stores (hs : h.Sound admits 0) (hroots : ∀ w ∈ roots, h.Usable admits w)
    {slot : Nat} {b : Block} (hslot : v.slot? = some slot)
    (hb : h.block? slot = some b) (hkind : b.header.kind.isHash = true)
    (hmutable : b.header.kind.isMutable = true) {key value : Value} (hkey : h.Usable admits key)
    (hvalue : h.Usable admits value) (hnil : b.header.kind ≠ .dict → value = Value.nil) :
    Yields admits (hashInsert roots slot key value) h
      (fun _ h' => h.Completed admits (roots ++ [v, key, value]) (.table v) [] h' ∧
        h.Stores slot key value h')
      (h.Declined admits (roots ++ [v, key, value])) := by
  have hfits := hs.coherent.fits slot b hb
  obtain ⟨t, hbody⟩ := Body.exists_table hfits hkind
  by_cases hkeyable : h.Keyable key
  · obtain ⟨hash, hhash⟩ := hkeyable
    have hstorable : h.Storable admits t.keepsValues hash key value := by
      refine ⟨hhash, hkey, hvalue, fun hset => hnil fun hdict => ?_⟩
      rw [hbody, hdict, Body.fits, hset] at hfits
      cases hfits
    have hheld := held_ofSlot h roots [key, value] hslot
    have hfrozen := Kind.isFrozen_of_isMutable hmutable
    refine (hashInsert_edits hs hroots hb hbody hfrozen hstorable).mono (fun _ h' hedited => ?_)
      fun _ _ hd => hd.starts_congr hheld
    obtain ⟨t', hbinds, htends, he⟩ := hedited
    obtain ⟨b', hb', _, hbody'⟩ := he.block
    have hallows := he.allows_table hs.coherent hslot hb hbody hfrozen
    exact ⟨(he.completed hb hallows).starts_congr hheld, hash, t, t', hhash, table_eq hb hbody,
      table_eq hb' hbody', hbinds, htends⟩
  · exact Yields.get (Yields.read (hashOf_gives hs.coherent hkey) (Declined.refl hs _)
      fun hash hhash => absurd ⟨hash, hhash⟩ hkeyable)

/-- A dictionary stores the value under the key, and the collection that this may start keeps
all three. -/
theorem dictPut_stores (hs : h.Sound admits 0) (hroots : ∀ w ∈ roots, h.Usable admits w)
    {dict key value : Value} (hdict : h.Usable admits dict) (hkey : h.Usable admits key)
    (hvalue : h.Usable admits value) :
    Yields admits (dictPut roots dict key value) h
      (fun _ h' => h.Completed admits (roots ++ [dict, key, value]) (.table dict) [] h' ∧
        ∃ slot, dict.slot? = some slot ∧ h.Stores slot key value h')
      (h.Declined admits (roots ++ [dict, key, value])) := by
  refine Yields.get (Yields.read (expectSlot_gives hdict ..) (Declined.refl hs _)
    fun slot hfound => ?_)
  obtain ⟨hslot, b, hb, hkind⟩ := hfound
  have hkind : b.header.kind = .dict := beq_iff_eq.mp hkind
  exact (hashInsert_stores hs hroots hslot hb (by rw [hkind]; rfl) (by rw [hkind]; rfl) hkey
    hvalue fun hne => absurd hkind hne).mono
    (fun _ _ ⟨hdone, hstores⟩ => ⟨hdone, slot, hslot, hstores⟩) fun _ _ hd => hd

omit [Digest] in
theorem mutableSetSlot_gives (hv : h.Usable admits v) :
    Gives admits (h.mutableSetSlot v) fun slot => v.slot? = some slot ∧
      ∃ b, h.block? slot = some b ∧ b.header.kind = .set := by
  refine Gives.bind (expectSlot_gives hv ..) fun slot hfound => ?_
  obtain ⟨hslot, b, hb, _⟩ := hfound
  refine Gives.look_eq (block_eq hb) ?_
  dsimp only
  split
  next hkind => exact Gives.ok ⟨hslot, b, hb, hkind⟩
  next => exact Gives.refuse ..

/-- A set stores the key, and the collection that this may start keeps both. -/
theorem setPut_stores (hs : h.Sound admits 0) (hroots : ∀ w ∈ roots, h.Usable admits w)
    {key : Value} (hv : h.Usable admits v) (hkey : h.Usable admits key) :
    Yields admits (setPut roots v key) h
      (fun _ h' => h.Completed admits (roots ++ [v, key]) (.table v) [] h' ∧
        ∃ slot, v.slot? = some slot ∧ h.Stores slot key Value.nil h')
      (h.Declined admits (roots ++ [v, key])) := by
  refine Yields.get (Yields.read (mutableSetSlot_gives hv) (Declined.refl hs _)
    fun slot hfound => ?_)
  obtain ⟨hslot, b, hb, hkind⟩ := hfound
  have hheld : ∀ s, h.Held (roots ++ [v, key, Value.nil]) s ↔ h.Held (roots ++ [v, key]) s := by
    refine held_congr (fun w hw => ?_) fun w hw => holds_of_mem (by grind)
    by_cases hnil : w = Value.nil
    · exact fun _ hslot => absurd hslot (by rw [hnil]; exact nofun)
    · exact holds_of_mem (by grind)
  exact (hashInsert_stores hs hroots hslot hb (by rw [hkind]; rfl) (by rw [hkind]; rfl) hkey
    usable_nil fun _ => rfl).mono
    (fun _ _ ⟨hdone, hstores⟩ => ⟨hdone.starts_congr hheld, slot, hslot, hstores⟩)
    fun _ _ hd => hd.starts_congr hheld

/-! ## Removal and lookup -/

/-- A removal takes the entry of an equal key out of a table, or is refused if there is none. -/
theorem hashRemove_yields {among : Value → Prop} (hc : h.Coherent among) {slot : Nat} {b : Block}
    {t : ProbeTable} (hb : h.block? slot = some b) (hbody : b.body = .hash t) {key : Value}
    {hash : UInt64} (hkey : h.hashOf key = .ok hash) (husable : h.Usable among key)
    {Q : Value → Heap → Prop} {R : Refusal → Heap → Prop}
    (hfound : ∀ stored value t', h.fingerprint stored = h.fingerprint key →
      t.toList.Perm ((hash, stored, value) :: t'.toList) → t.Reshapes t' →
      t'.size + t'.tombstones = t.size + t.tombstones → Q value (h.setBody slot (.hash t')))
    (hmissing : (∀ entry ∈ t.toList, h.fingerprint entry.2.1 ≠ h.fingerprint key) →
      R .keyNotFound h) :
    Yields admits (hashRemove slot key) h Q R := by
  obtain ⟨answer, hfind, hanswers⟩ := find_spec hc hb hbody hkey husable
  refine Yields.get (Yields.read_eq hkey (Yields.look_eq hfind ?_))
  cases answer with
  | full => exact Yields.throw (hmissing (hc.ne_of_lacks hb hbody hkey husable hanswers.2))
  | vacant index =>
      exact Yields.throw (hmissing (hc.ne_of_lacks hb hbody hkey husable hanswers.2.2))
  | found index =>
      obtain ⟨stored, value, hentry, hsame⟩ := hanswers
      obtain ⟨t', hremove, hreshapes, hperm, hused⟩ :=
        ProbeTable.remove_spec (hc.table hb hbody).valid.1 hentry
      exact Yields.look_eq (table_eq hb hbody) (Yields.look_eq hremove (Yields.set_bind
        (Yields.pure (hfound stored value t' (of_decide_eq_true hsame) hperm hreshapes
          hused))))

/-- Whether the entry of a key has been taken out of the table in a slot. -/
def Removes (h : Heap) (slot : Nat) (key : Value) (h' : Heap) : Prop :=
  ∃ hash stored value t t', h.table slot = .ok t ∧ h'.table slot = .ok t' ∧
    h.fingerprint stored = h.fingerprint key ∧
    t.toList.Perm ((hash, stored, value) :: t'.toList) ∧ t.Tends h.settings t'

/-- A removal from the table of a value that may change. -/
theorem hashRemove_removes (hs : h.Sound admits 0) {slot : Nat} {b : Block}
    (hslot : v.slot? = some slot) (hb : h.block? slot = some b)
    (hkind : b.header.kind.isHash = true) (hmutable : b.header.kind.isMutable = true) {key : Value}
    (hkey : h.Usable admits key) :
    Yields admits (hashRemove slot key) h
      (fun value h' => h.Completed admits starts (.table v) [value] h' ∧ h.Removes slot key h')
      (h.Declined admits starts) := by
  obtain ⟨t, hbody⟩ := Body.exists_table (hs.coherent.fits slot b hb) hkind
  have hold := hs.coherent.table hb hbody
  by_cases hkeyable : h.Keyable key
  · obtain ⟨hash, hhash⟩ := hkeyable
    refine hashRemove_yields hs.coherent hb hbody hhash hkey
      (fun stored value t' hsame hperm hreshapes hused => ?_) fun _ => Declined.refl hs ..
    have hmem : (hash, stored, value) ∈ t.toList := hperm.mem_iff.mpr (List.mem_cons_self ..)
    have hvalue := hs.coherent.stored_value hb hbody hmem
    have ha : h.Accepts admits b.header.kind (.hash t') :=
      hold.table hreshapes.valid hreshapes.keepsValues_eq (fun hash key value hmem =>
        Or.inl (hperm.mem_iff.mpr (List.mem_cons_of_mem _ hmem)))
        (List.nodup_cons.mp ((hperm.map _).nodup_iff.mp (hold.keyed t rfl).distinct)).2
    have hsize : (Body.hash t').blockSize = b.body.blockSize := by
      rw [hbody]
      exact ProbeTable.blockSize_eq hreshapes.capacity_eq hreshapes.keepsValues_eq
    have hr : h.Retains admits (.table v) (h.setBody slot (.hash t')) :=
      hs.setBody_retains hb (Kind.isFrozen_of_isMutable hmutable) ha hsize
        fun halike => Target.allows_table hslot halike (by rw [hbody]; rfl)
    exact ⟨hr.completed (by simpa using hvalue) id, hash, stored, value, t, t', table_eq hb hbody,
      table_eq (block?_setBody_self hb _) rfl, hsame, hperm, hreshapes.tends hused _⟩
  · exact Yields.get (Yields.read (hashOf_gives hs.coherent hkey) (Declined.refl hs _)
      fun hash hhash => absurd ⟨hash, hhash⟩ hkeyable)

/-- A dictionary removes the entry of a key and answers its value. -/
theorem dictDel_removes (hs : h.Sound admits 0) {dict key : Value} (hdict : h.Usable admits dict)
    (hkey : h.Usable admits key) :
    Yields admits (dictDel dict key) h
      (fun value h' => h.Completed admits starts (.table dict) [value] h' ∧
        ∃ slot, dict.slot? = some slot ∧ h.Removes slot key h')
      (h.Declined admits starts) := by
  refine Yields.get (Yields.read (expectSlot_gives hdict ..) (Declined.refl hs _)
    fun slot hfound => ?_)
  obtain ⟨hslot, b, hb, hkind⟩ := hfound
  have hkind : b.header.kind = .dict := beq_iff_eq.mp hkind
  exact (hashRemove_removes hs hslot hb (by rw [hkind]; rfl) (by rw [hkind]; rfl) hkey).mono
    (fun _ _ ⟨hdone, hremoves⟩ => ⟨hdone, slot, hslot, hremoves⟩) fun _ _ hd => hd

theorem setDel_removes (hs : h.Sound admits 0) {key : Value} (hv : h.Usable admits v)
    (hkey : h.Usable admits key) :
    Yields admits (setDel v key) h
      (fun _ h' => h.Completed admits starts (.table v) [] h' ∧
        ∃ slot, v.slot? = some slot ∧ h.Removes slot key h')
      (h.Declined admits starts) := by
  refine Yields.get (Yields.read (mutableSetSlot_gives hv) (Declined.refl hs _)
    fun slot hfound => ?_)
  obtain ⟨hslot, b, hb, hkind⟩ := hfound
  refine Yields.bind (hashRemove_removes hs hslot hb (by rw [hkind]; rfl) (by rw [hkind]; rfl)
    hkey) fun _ h' hremoved => Yields.pure ?_
  obtain ⟨hdone, hremoves⟩ := hremoved
  exact ⟨⟨hdone.sound, by simp, by simp, hdone.carries⟩, slot, hslot, hremoves⟩

/-- A lookup gives an entry of the table. -/
theorem hashLookup_gives (hc : h.Coherent admits) {slot : Nat} {b : Block}
    (hb : h.block? slot = some b) (hkind : b.header.kind.isHash = true) {key : Value}
    (hkey : h.Usable admits key) :
    Gives admits (h.hashLookup slot key) fun found => ∀ stored value, found = some (stored, value) →
      h.Usable admits stored ∧ h.Usable admits value := by
  obtain ⟨t, hbody⟩ := Body.exists_table (hc.fits slot b hb) hkind
  refine Gives.bind (hashOf_gives hc hkey) fun hash hhash => ?_
  obtain ⟨answer, hfind, hanswers⟩ := find_spec hc hb hbody hhash hkey
  refine Gives.look_eq hfind ?_
  cases answer with
  | full => exact Gives.ok fun _ _ hnone => nomatch hnone
  | vacant index => exact Gives.ok fun _ _ hnone => nomatch hnone
  | found index =>
      obtain ⟨stored, value, hentry, _⟩ := hanswers
      have hmem : (hash, stored, value) ∈ t.toList := ProbeTable.mem_toList.mpr ⟨index, hentry⟩
      have hfound : t.entry index = .ok (.occupied hash stored value) := by
        rw [ProbeTable.entry, hentry]
      refine Gives.look_eq (table_eq hb hbody) (Gives.look_eq hfound (Gives.ok ?_))
      rintro k w ⟨⟩
      exact ⟨(hc.stored_key hb hbody hmem).2, hc.stored_value hb hbody hmem⟩

/-- A value that a dictionary answers is usable. -/
theorem dictGet_gives (hc : h.Coherent admits) {dict key : Value} (hdict : h.Usable admits dict)
    (hkey : h.Usable admits key) :
    Gives admits (h.dictGet dict key) fun found => ∀ value, found = some value →
      h.Usable admits value := by
  refine Gives.bind (expectSlot_gives hdict ..) fun slot hfound => ?_
  obtain ⟨_, b, hb, hkind⟩ := hfound
  refine Gives.bind (hashLookup_gives hc hb (Kind.isHash_of_dict _ hkind) hkey)
    fun found hentry => ?_
  refine Gives.ok fun value hvalue => ?_
  obtain ⟨⟨stored, _⟩, rfl, rfl⟩ := Option.map_eq_some_iff.mp hvalue
  exact (hentry stored _ rfl).2

theorem setGet_gives (hc : h.Coherent admits) {key : Value} (hv : h.Usable admits v)
    (hkey : h.Usable admits key) :
    Gives admits (h.setGet v key) fun found => ∀ stored, found = some stored →
      h.Usable admits stored := by
  refine Gives.bind (expectSlot_gives hv ..) fun slot hfound => ?_
  obtain ⟨_, b, hb, hkind⟩ := hfound
  refine Gives.bind (hashLookup_gives hc hb (Kind.isHash_of_set _ hkind) hkey)
    fun found hentry => ?_
  refine Gives.ok fun stored hstored => ?_
  obtain ⟨⟨_, value⟩, rfl, rfl⟩ := Option.map_eq_some_iff.mp hstored
  exact (hentry _ value rfl).1

omit [Digest] in
theorem hashEntries_eq {slot : Nat} {b : Block} {t : ProbeTable} (hslot : v.slot? = some slot)
    (hb : h.block? slot = some b) (hkind : b.header.kind.isHash = true) (hbody : b.body = .hash t) :
    h.hashEntries v = .ok (t.toList.map Prod.snd) := by
  rw [hashEntries, expectSlot_eq hslot hb _ _ hkind]
  exact liftM_bind_eq (table_eq hb hbody) _

/-- The entries that a walk over a table comes to are usable. -/
theorem hashEntries_gives (hc : h.Coherent admits) (hv : h.Usable admits v) :
    Gives admits (h.hashEntries v) fun entries => ∀ entry ∈ entries,
      h.Usable admits entry.1 ∧ h.Usable admits entry.2 := by
  refine Gives.bind (expectSlot_gives hv ..) fun slot hfound => ?_
  obtain ⟨_, b, hb, hkind⟩ := hfound
  obtain ⟨t, hbody⟩ := Body.exists_table (hc.fits slot b hb) hkind
  refine Gives.look_eq (table_eq hb hbody) (Gives.ok fun entry hentry => ?_)
  obtain ⟨⟨hash, key, value⟩, hmem, rfl⟩ := List.mem_map.mp hentry
  exact ⟨(hc.stored_key hb hbody hmem).2, hc.stored_value hb hbody hmem⟩

/-! ## Frozen sets -/

omit [Digest] in
/-- Nothing refers to a block whose table gains an entry that does not refer to it. -/
theorem Unreferenced.gain {slot : Nat} {b : Block} {t t' : ProbeTable}
    (hunref : h.Unreferenced slot) (hb : h.block? slot = some b) (hbody : b.body = .hash t)
    {hash : UInt64} {key value : Value}
    (hgains : t.Gains t' hash key value) (hkey : key.slot? ≠ some slot)
    (hvalue : value.slot? ≠ some slot) : (h.setBody slot (.hash t')).Unreferenced slot := by
  intro s block hblock w hw
  by_cases hs : s = slot
  · rw [hs, block?_setBody_self hb] at hblock
    cases hblock
    rcases hgains.edges hw with hold | rfl | rfl
    · exact hunref slot b hb w (by rwa [hbody])
    · exact hkey
    · exact hvalue
  · rw [block?_setBody_other hs] at hblock
    exact hunref s block hblock w hw

/-- A change of a block that nothing refers to leaves all other values as they are. -/
theorem Unreferenced.agree_setBody {slot : Nat} (hunref : h.Unreferenced slot)
    (hc : h.Coherent admits) (body : Body) :
    h.Agree (h.setBody slot body) fun w => h.Usable admits w ∧ w.slot? ≠ some slot := by
  refine ⟨fun w s hw hs => ?_, fun w s block part hw hs hblock hpart => ?_⟩
  · obtain ⟨block, hblock⟩ := hw.1.block? hs
    have hother : s ≠ slot := fun heq => hw.2 (heq ▸ hs)
    exact ⟨block, block, hblock, (block?_setBody_other hother body).trans hblock,
      Block.Alike.refl (hc.fits s block hblock)⟩
  · exact ⟨hc.parts_usable hblock hpart,
      hunref s block hblock part (Block.mem_edges_of_mem_parts hpart)⟩

/-- Protecting values changes no hash. -/
theorem Coherent.hashOf_protectAll (hc : h.Coherent admits) (values : List Value) {key : Value}
    (hkey : h.Usable admits key) : (h.protectAll values).hashOf key = h.hashOf key := by
  have hagree : h.Agree (h.protectAll values) (h.Usable admits) :=
    ⟨hc.agree_self.alike, hc.agree_self.closed⟩
  obtain ⟨rank, hrank, hdepth⟩ := hc.exists_rank
  exact hagree.hashOf_eq hrank (Nat.le_refl _) hkey (hdepth key hkey)

/-- An item that may go into a frozen set while nothing refers to it. -/
structure Addable (admits : Value → Prop) (h : Heap) (slot : Nat) (print : Value → Nat)
    (item : Value) : Prop where
  usable : h.Usable admits item
  slot?_ne : item.slot? ≠ some slot
  keyable : h.Keyable item
  print_eq : h.fingerprint item = print item

/-- The state while a frozen set is filled: nothing refers to it, it has room for the `left`
items that are still to come, and has the entries that a ledger leaves. -/
structure Filling (admits : Value → Prop) (h : Heap) (slot left : Nat) (items : List Value)
    (print : Value → Nat) (ledger : Ledger) : Prop where
  sound : h.Sound admits 0
  unreferenced : h.Unreferenced slot
  table : ∃ b t, h.block? slot = some b ∧ b.header.kind = .frozenSet ∧ b.body = .hash t ∧
    (t.size + t.tombstones + left) * Binary64.unit ≤
      t.capacity * h.settings.loadFactor.magnitude ∧
    t.Records h.fingerprint ledger
  items : ∀ item ∈ items, h.Addable admits slot print item

theorem Filling.stored_slot?_ne {slot left : Nat} {items : List Value} {print : Value → Nat}
    {ledger : Ledger} (hf : h.Filling admits slot left items print ledger) {b : Block}
    {t : ProbeTable} (hb : h.block? slot = some b) (hbody : b.body = .hash t) {hash : UInt64}
    {key value : Value} (hmem : (hash, key, value) ∈ t.toList) : key.slot? ≠ some slot := by
  refine hf.unreferenced slot b hb key ?_
  rw [hbody]
  exact ProbeTable.mem_edges.mpr ⟨hash, key, value, hmem, Or.inl rfl⟩

/-- A table that gains an item stays in its block, and the other items can still be added. -/
theorem Filling.gain {slot left : Nat} {items : List Value} {print : Value → Nat} {ledger : Ledger}
    (hf : h.Filling admits slot (left + 1) items print ledger) {item : Value} (hitem : item ∈ items)
    {b : Block} {t t' : ProbeTable} (hb : h.block? slot = some b)
    (hkind : b.header.kind = .frozenSet) (hbody : b.body = .hash t)
    (hload : (t.size + t.tombstones + (left + 1)) * Binary64.unit ≤
      t.capacity * h.settings.loadFactor.magnitude)
    (hrecords : t.Records h.fingerprint ledger) {hash : UInt64} {stored : Value}
    (hstored : h.hashOf stored = .ok hash) (husable : h.Usable admits stored)
    (hother : stored.slot? ≠ some slot) (hgains : t.Gains t' hash stored Value.nil)
    (hbinds : ProbeTable.Binds h.fingerprint hash item Value.nil t t') :
    (∃ new, h.Writes slot new (h.setBody slot (.hash t'))) ∧
      (h.setBody slot (.hash t')).Filling admits slot left items print
        (ledger ++ [.put (print item) item Value.nil]) := by
  have hc := hf.sound.coherent
  have hdistinct := ((hc.table hb hbody).keyed t rfl).distinct
  have hnil : Value.nil.slot? ≠ some slot := nofun
  have he := hf.sound.gain hb hbody hgains ⟨hstored, husable, usable_nil, fun _ => rfl⟩
    (hbinds.nodup hdistinct) (Or.inr ⟨hf.unreferenced, hother, hnil⟩) []
  have hw := writes_setBody hb (.hash t')
  have hagree := hf.unreferenced.agree_setBody hc (.hash t')
  have hsame (k : Value) (hk : h.Usable admits k) (hkne : k.slot? ≠ some slot)
      (hkeyable : h.Keyable k) : (h.setBody slot (.hash t')).fingerprint k = h.fingerprint k :=
    hagree.fingerprint_eq hc hw.size_le ⟨hk, hkne⟩ hk hkeyable
  refine ⟨⟨_, hw⟩, he.sound, hf.unreferenced.gain hb hbody hgains hother hnil, ?_, ?_⟩
  · refine ⟨_, t', hw.block?_slot, hkind, rfl, ?_, ?_⟩
    · have hused := hgains.used_le
      rw [hgains.reshapes.capacity_eq]
      exact Nat.le_trans (Nat.mul_le_mul_right _ (by omega)) hload
    · rw [← (hf.items item hitem).print_eq]
      refine (hrecords.put hbinds hdistinct).congr fun other k old hmem => ?_
      rcases hgains.mem _ hmem with hold | hnew
      · obtain ⟨hhash, hk⟩ := hc.stored_key hb hbody hold
        exact hsame k hk (hf.stored_slot?_ne hb hbody hold) ⟨other, hhash⟩
      · cases hnew
        exact hsame stored husable hother ⟨hash, hstored⟩
  · intro other hmem
    have ho := hf.items other hmem
    obtain ⟨otherhash, hotherkey⟩ := ho.keyable
    obtain ⟨rank, hrank, hdepth⟩ := hc.exists_rank
    refine ⟨hw.usable ho.usable, ho.slot?_ne, ⟨otherhash, ?_⟩,
      (hsame other ho.usable ho.slot?_ne ho.keyable).trans ho.print_eq⟩
    rw [hagree.hashOf_eq hrank hw.size_le ⟨ho.usable, ho.slot?_ne⟩ (hdepth other ho.usable),
      hotherkey]

/-- One more item can be added to a frozen set that is being filled. -/
theorem Filling.step {slot left : Nat} {items : List Value} {print : Value → Nat} {ledger : Ledger}
    (hf : h.Filling admits slot (left + 1) items print ledger) {item : Value} (hitem : item ∈ items)
    {among : Value → Prop} {R : Refusal → Heap → Prop} :
    Yields among (hashInsert roots slot item Value.nil) h
      (fun _ h' => (∃ new, h.Writes slot new h') ∧
        h'.Filling admits slot left items print (ledger ++ [.put (print item) item Value.nil]))
      R := by
  obtain ⟨b, t, hb, hkind, hbody, hload, hrecords⟩ := hf.table
  obtain ⟨husable, hne, ⟨hash, hkey⟩, _⟩ := hf.items item hitem
  have hc := hf.sound.coherent
  have hfraction := Settings.fraction_of_flaw? hf.sound.consistent.settings_ok
  have hroomy := ProbeTable.needsRehash_of_left hfraction hload
  refine hashInsert_yields hf.sound hb hbody hkey husable
    (fun stored old t' hmem _ hgains _ _ hbinds => ?_) fun hlacks => ?_
  · -- an equal item is there already, and stays
    obtain ⟨hstored, hstoredusable⟩ := hc.stored_key hb hbody hmem
    exact hf.gain hitem hb hkind hbody hload hrecords hstored hstoredusable
      (hf.stored_slot?_ne hb hbody hmem) hgains hbinds
  · refine Yields.bind (reserveSlot_roomy hf.sound hb hbody hroomy _) fun _ h' hroom => ?_
    obtain ⟨rfl, hroom⟩ := hroom
    refine (fillVacant_yields hf.sound hb hbody hkey husable hlacks hroom).mono
      (fun _ h' hfilled => ?_) fun _ _ hd => hd
    obtain ⟨t', hgains, _, hperm, rfl⟩ := hfilled
    exact hf.gain hitem hb hkind hbody hload hrecords hkey husable hne hgains
      (.added (hc.ne_of_lacks hb hbody hkey husable hlacks) hperm)

/-- Items can be added to a frozen set as long as it has room. -/
theorem Filling.run {slot left : Nat} {items rest : List Value} {print : Value → Nat}
    {ledger : Ledger} (hsub : ∀ item ∈ rest, item ∈ items)
    (hf : h.Filling admits slot (left + rest.length) items print ledger)
    {among : Value → Prop} {R : Refusal → Heap → Prop} :
    Yields among (rest.forM fun item => hashInsert roots slot item Value.nil) h
      (fun _ h' => (∃ new, h.Writes slot new h') ∧ h'.Filling admits slot left items print
        (ledger ++ rest.map fun item => .put (print item) item Value.nil)) R := by
  induction rest generalizing h ledger with
  | nil =>
      obtain ⟨b, t, hb, _⟩ := hf.table
      refine Yields.pure ⟨⟨b, rfl, rfl, rfl, Nat.le_refl _, hb, fun _ _ => rfl⟩, ?_⟩
      rw [List.map_nil, List.append_nil]
      exact hf
  | cons item rest ih =>
      refine Yields.bind (hf.step (hsub item (List.mem_cons_self ..))) fun _ h' hstep => ?_
      obtain ⟨⟨_, hw⟩, hf'⟩ := hstep
      refine (ih (fun w hw => hsub w (List.mem_cons_of_mem _ hw)) hf').mono
        (fun _ h'' hrun => ?_) fun _ _ hd => hd
      obtain ⟨⟨new, hw'⟩, hf''⟩ := hrun
      rw [List.append_assoc] at hf''
      exact ⟨⟨new, hw.trans hw'⟩, hf''⟩

/-- What making a frozen set leaves: a new table with the items. -/
structure Assembled (admits : Value → Prop) (h : Heap) (starts items : List Value) (v : Value)
    (h' : Heap) : Prop where
  completed : h.Completed admits starts (.filled v) [v] h'
  table : ∃ slot t, v.slot? = some slot ∧ h'.table slot = .ok t ∧
    (∀ b, h.block? slot = some b → ¬ h.Survives starts h' slot) ∧
    t.Within h'.settings.loadFactor ∧
    t.Records h'.fingerprint (items.map fun item => .put (h.fingerprint item) item Value.nil)

theorem Assembled.unprotect {values items : List Value}
    (hmade : (h.protectAll values).Assembled admits starts items v h') :
    h.Assembled admits (starts ++ values) items v (h'.releaseRegisters h.registerMark) := by
  obtain ⟨slot, t, hslot, htable, hfresh, hwithin, hrecords⟩ := hmade.table
  refine ⟨hmade.completed.unprotect rfl, slot, t, hslot, htable, fun b hb hsurvives => ?_, hwithin,
    ?_⟩
  · exact hfresh b hb (survives_protectAll.mpr hsurvives)
  · have hafter : (h'.releaseRegisters h.registerMark).fingerprint = h'.fingerprint :=
      fingerprint_congr rfl
    have hbefore : (h.protectAll values).fingerprint = h.fingerprint := fingerprint_congr rfl
    rw [hafter, ← hbefore]
    exact hrecords

/-- A key that is held can go into a set that has just been made. -/
theorem Allocated.addable {kind : Kind} {body : Body} {slot : Nat}
    (hnew : h.Allocated admits starts kind body slot h') (hcarries : h.Carries starts .nothing h')
    (hc : h.Coherent admits) {item : Value} (husable : h.Usable admits item)
    (hkeyable : h.Keyable item) (hheld : h.Holds starts item) :
    h'.Addable admits slot h.fingerprint item := by
  have hsurvives (s : Nat) (hs : item.slot? = some s) : h.Survives starts h' s :=
    Or.inr (hheld s hs)
  refine ⟨hcarries.usable husable hsurvives, fun hsame => ?_, ?_,
    hcarries.fingerprint_eq hc husable hsurvives hkeyable⟩
  · obtain ⟨block, hblock⟩ := husable.block? hsame
    exact hnew.fresh block hblock (hsurvives slot hsame)
  · obtain ⟨hash, hhash⟩ := hkeyable
    exact ⟨hash, (hcarries.hashOf_eq hc husable hsurvives).trans hhash⟩

/-- Items that are hashed without a refusal are keys. -/
theorem checkKeys_gives (hc : h.Coherent admits) {items : List Value}
    (hitems : ∀ w ∈ items, h.Usable admits w) :
    Gives admits (h.checkKeys items) fun _ => ∀ item ∈ items, h.Keyable item := by
  refine Gives.forM fun item hitem => ?_
  refine Gives.bind (hashOf_gives hc (hitems item hitem)) fun hash hhash => ?_
  exact Gives.ok ⟨hash, hhash⟩

theorem Keyable.protectAll {item : Value} (hkeyable : h.Keyable item) (hc : h.Coherent admits)
    (husable : h.Usable admits item) (values : List Value) :
    (h.protectAll values).Keyable item := by
  obtain ⟨hash, hhash⟩ := hkeyable
  exact ⟨hash, (hc.hashOf_protectAll values husable).trans hhash⟩

/-- A frozen set that is being made, with the first `n` of its items. -/
def fillSet (roots items : List Value) (n : Nat) : HeapM (Value × Nat) := do
  let result ← newSet roots .frozenSet items.length
  let slot ← (← get).expectSlot result "frozenset" (· == .frozenSet)
  (items.take n).forM fun item => hashInsert roots slot item Value.nil
  return (result, slot)

theorem newFrozenSet_eq (roots items : List Value) : newFrozenSet roots items = (do
    (← get).checkKeys items
    protecting items (Prod.fst <$> fillSet roots items items.length)) := by
  simp [newFrozenSet, fillSet]

/-- A blank frozen set is made with room for all items, or there is no memory for it. -/
theorem newSet_filling (hs : h.Sound admits 0) (hroots : ∀ w ∈ roots, h.Usable admits w)
    {items : List Value} (hitems : ∀ w ∈ items, h.Usable admits w)
    (hkeyable : ∀ w ∈ items, h.Keyable w) (hheld : ∀ w ∈ items, h.Holds roots w)
    {among : Value → Prop} :
    Yields among (newSet roots .frozenSet items.length) h
      (fun v h' => ∃ slot body, v.slot? = some slot ∧
        h.Allocated admits roots .frozenSet body slot h' ∧
        h'.expectSlot v "frozenset" (· == .frozenSet) = .ok slot ∧
        h'.Filling admits slot items.length items h.fingerprint [])
      (fun refusal h' => refusal.isOutOfMemory = true ∧ h.Declined admits roots refusal h') := by
  refine (newTable_yields hs hroots (fun _ => rfl) items.length).mono (fun v h' hv => ?_)
    fun _ _ hd => hd
  obtain ⟨slots, size, slot, hcapacity, hblock, hsize, hslot, hnew⟩ := hv
  obtain ⟨b, hb, hkind, hbody, _⟩ := hnew.block
  have hcarries := hnew.carries fun t ht => by cases ht; exact ProbeTable.unused_blank ..
  refine ⟨slot, _, hslot, hnew, expectSlot_eq hslot hb _ _ (by rw [hkind]; rfl), hnew.sound,
    hnew.unreferenced, ⟨b, _, hb, hkind, hbody, ?_,
      ProbeTable.records_nil (ProbeTable.toList_blank ..) _⟩, fun item hitem =>
      hnew.addable hcarries hs.coherent (hitems item hitem) (hkeyable item hitem)
        (hheld item hitem)⟩
  have hload := Settings.fraction_of_flaw? hs.consistent.settings_ok
  have hslots := ProbeTable.slots_le_of_hashBlock? hblock
  have hheap : h.settings.heapSize < 2 ^ 52 :=
    Nat.lt_trans hs.consistent.heapSize_lt (by decide)
  rw [ProbeTable.capacity_blank, hnew.settings_eq]
  refine Nat.le_trans (Nat.mul_le_mul_right _ ?_)
    ((ProbeTable.capacityFor?_spec hload hcapacity).2.2 (by omega))
  simp [ProbeTable.blank]

/-- A blank frozen set is made, and then gets one item after another, or there is no memory for
it. -/
theorem fillSet_yields (hs : h.Sound admits 0) (hroots : ∀ w ∈ roots, h.Usable admits w)
    {items : List Value} (hitems : ∀ w ∈ items, h.Usable admits w)
    (hkeyable : ∀ w ∈ items, h.Keyable w) (hheld : ∀ w ∈ items, h.Holds roots w) {n : Nat}
    (hn : n ≤ items.length) :
    Yields admits (fillSet roots items n) h
      (fun made h' => made.1.slot? = some made.2 ∧
        (∃ body mid new, h.Allocated admits roots .frozenSet body made.2 mid ∧
          mid.Writes made.2 new h') ∧
        h'.Filling admits made.2 (items.length - n) items h.fingerprint
          ((items.take n).map fun item => .put (h.fingerprint item) item Value.nil))
      (h.Declined admits roots) := by
  refine Yields.bind ((newSet_filling hs hroots hitems hkeyable hheld).mono
    (fun _ _ hv => hv) fun _ _ hd => hd.2) fun v h' hv => ?_
  obtain ⟨slot, body, hslot, hnew, hexpect, hfilling⟩ := hv
  refine Yields.get (Yields.read_eq hexpect ?_)
  have hlength : items.length = items.length - n + (items.take n).length := by
    rw [List.length_take]
    omega
  rw [hlength] at hfilling
  refine Yields.bind (hfilling.run fun w hw => List.mem_of_mem_take hw) fun _ h'' hrun =>
    Yields.pure ?_
  obtain ⟨⟨new, hw⟩, hf⟩ := hrun
  exact ⟨hslot, ⟨_, h', new, hnew, hw⟩, hf⟩

/-- A frozen set of keys is made, or there is no memory for it. -/
theorem newFrozenSet_yields (hs : h.Sound admits 0) (hroots : ∀ w ∈ roots, h.Usable admits w)
    {items : List Value} (hitems : ∀ w ∈ items, h.Usable admits w) :
    Yields admits (newFrozenSet roots items) h (h.Assembled admits (roots ++ items) items)
      (h.Declined admits (roots ++ items)) := by
  rw [newFrozenSet_eq]
  refine Yields.get (Yields.read (checkKeys_gives hs.coherent hitems) (Declined.refl hs _)
    fun _ hkeyable => ?_)
  have hfill := fillSet_yields (hs.protectAll hitems) hroots hitems
    (fun item hitem => (hkeyable item hitem).protectAll hs.coherent (hitems item hitem) items)
    (fun item hitem _ hslot => .register (mem_protectAll.mpr (Or.inr hitem)) hslot)
    (Nat.le_refl _)
  refine yields_protecting (Q := (h.protectAll items).Assembled admits roots items)
    (Yields.map (Yields.mono hfill (fun made h' hmade => ?_) fun _ _ hd => hd))
    (fun v h' hmade => hmade.unprotect) fun _ _ hd => hd.unprotect
  obtain ⟨v, slot⟩ := made
  obtain ⟨hslot, ⟨body, mid, new, hnew, hw⟩, hf⟩ := hmade
  rw [List.take_length, Nat.sub_self] at hf
  obtain ⟨b, t, hb, _, hbody, hwithin, hrecords⟩ := hf.table
  have hfresh : (h.protectAll items).Fresh roots h' v :=
    (hnew.fresh_of_slot? hslot).of_le hnew.collections_le (Nat.le_of_eq hw.collections_eq.symm)
  refine ⟨⟨hf.sound, fun w hmem => ?_, fun _ w hmem => ?_, hnew.carries_filled hw hslot⟩, slot, t,
    hslot, table_eq hb hbody, fun block => hfresh slot block hslot, hwithin, hrecords⟩
  · rw [List.mem_singleton.mp hmem]
    exact usable_of_slot? hslot hb
  · rw [List.mem_singleton.mp hmem]
    exact hfresh

end Heap

end ObjectHeap
