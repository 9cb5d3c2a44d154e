import ObjectHeap.Proofs.Runs

/-! # Stored keys in runs

A table stores each key with the hash that the key had when it was inserted, and finds it again by
that hash. This works because no operation changes what a key hashes and compares by: containers
that may change are no keys, and everything else that may change is known by its handle, which no
other block gets as long as a table refers to it.
-/

namespace ObjectHeap

/-- Entries with the same print stand in the same slot, if all prints differ. -/
theorem ProbeTable.index_eq_of_nodup {t : ProbeTable} {print : Value → Nat}
    (hnodup : (t.toList.map fun entry => print entry.2.1).Nodup) {i j : Nat} {hash hash' : UInt64}
    {key key' value value' : Value} (hi : t.entries[i]? = some (.occupied hash key value))
    (hj : t.entries[j]? = some (.occupied hash' key' value')) (hsame : print key = print key') :
    i = j := by
  rw [toList_eq, List.map_filterMap, List.nodup_iff_pairwise_ne, List.pairwise_filterMap,
    List.pairwise_iff_getElem] at hnodup
  rw [← Array.getElem?_toList, List.getElem?_eq_some_iff] at hi hj
  obtain ⟨hilt, hi⟩ := hi
  obtain ⟨hjlt, hj⟩ := hj
  rcases Nat.lt_trichotomy i j with hlt | heq | hlt
  · exact absurd hsame (hnodup i j hilt hjlt hlt _ (by rw [hi]; rfl) _ (by rw [hj]; rfl))
  · exact heq
  · exact absurd hsame.symm (hnodup j i hjlt hilt hlt _ (by rw [hj]; rfl) _ (by rw [hi]; rfl))

/-- The tables of other kinds than dicts are made for keys only. -/
theorem Body.keepsValues_eq_false {t : ProbeTable} {kind : Kind}
    (hfits : (Body.hash t).fits kind = true) (hdict : kind ≠ .dict) : t.keepsValues = false := by
  cases kind <;> simp_all [fits]

namespace Heap

variable {admits : Value → Prop} {h h' : Heap}

section Tables

variable [Digest] (hc : h.Coherent admits) {slot : Nat} {b : Block} {t : ProbeTable}
  (hb : h.block? slot = some b) (hbody : b.body = .hash t)
include hc hb hbody

/-- The search for a stored key ends at its own entry. -/
theorem Coherent.find_stored {index : Nat} {hash : UInt64} {key value : Value}
    (hentry : t.entries[index]? = some (.occupied hash key value)) :
    h.find slot key hash = .ok (.found index) := by
  have hmem := ProbeTable.mem_toList.mpr ⟨index, hentry⟩
  obtain ⟨hhash, husable⟩ := hc.stored_key hb hbody hmem
  obtain ⟨answer, hfind, hanswers⟩ := find_spec hc hb hbody hhash husable
  -- an answer other than found would have missed the entry itself
  have hself : h.isKey key key = true := decide_eq_true rfl
  have hmissed (hlacks : t.Lacks hash (h.isKey key)) : False :=
    Bool.false_ne_true ((hlacks key value hmem).symm.trans hself)
  cases answer with
  | found other =>
      obtain ⟨stored, old, hother, hsame⟩ := hanswers
      rw [hfind, ProbeTable.index_eq_of_nodup (hc.keyed slot b t hb hbody).distinct hother hentry
        (of_decide_eq_true hsame)]
  | vacant => exact (hmissed hanswers.2.2).elim
  | full => exact (hmissed hanswers.2).elim

/-- The keys in different slots are not equal. -/
theorem Coherent.stored_ne {i j : Nat} (hne : i ≠ j) {hash hash' : UInt64}
    {key key' value value' : Value} (hi : t.entries[i]? = some (.occupied hash key value))
    (hj : t.entries[j]? = some (.occupied hash' key' value')) :
    h.valuesEqual key key' = .ok false := by
  obtain ⟨hhash, husable⟩ := hc.stored_key hb hbody (ProbeTable.mem_toList.mpr ⟨i, hi⟩)
  obtain ⟨hhash', husable'⟩ := hc.stored_key hb hbody (ProbeTable.mem_toList.mpr ⟨j, hj⟩)
  rw [hc.valuesEqual_keys ⟨hash, hhash⟩ ⟨hash', hhash'⟩ husable husable', decide_eq_false]
  exact fun hsame =>
    hne (ProbeTable.index_eq_of_nodup (hc.keyed slot b t hb hbody).distinct hi hj hsame)

/-- The hashes of stored keys outlive every operation that the table outlives. -/
theorem Coherent.stored_hash {starts : List Value} {target : Target}
    (hcarries : h.Carries starts target h') (hsurvives : h.Survives starts h' slot) {hash : UInt64}
    {key value : Value} (hmem : (hash, key, value) ∈ t.toList) : h'.hashOf key = .ok hash := by
  obtain ⟨hhash, husable⟩ := hc.stored_key hb hbody hmem
  have hedge : key ∈ b.body.edges := by
    rw [hbody]
    exact ProbeTable.mem_edges.mpr ⟨hash, key, value, hmem, Or.inl rfl⟩
  rw [hcarries.hashOf_eq hc husable fun next hnext => hsurvives.edge hb hedge hnext, hhash]

end Tables

/-- In every dict, set and frozen set of a run, an entry is stored under the hash that its key has
now, lies on the path of that hash, and is the one that a search for its key finds. Sets store no
values, no two keys are equal, and no operation that the table outlives changes the hash of a key
in it. -/
theorem Reachable.tables_keyed [Digest] (hr : h.Reachable admits) {slot : Nat} {block : Block}
    (hblock : h.block? slot = some block) (hkind : block.header.kind.isHash = true) :
    ∃ table, block.body = .hash table ∧
      (∀ (index : Nat) hash key value, table.entries[index]? = some (.occupied hash key value) →
        h.hashOf key = .ok hash ∧ table.OnPath hash index ∧
        h.find slot key hash = .ok (.found index) ∧
        (block.header.kind ≠ .dict → value = Value.nil)) ∧
      (∀ (i j : Nat) hash hash' key key' value value', i ≠ j →
        table.entries[i]? = some (.occupied hash key value) →
        table.entries[j]? = some (.occupied hash' key' value') →
        h.valuesEqual key key' = .ok false) ∧
      ∀ roots (op : Operation) h', (∀ v ∈ roots ++ op.arguments, h.Usable admits v) →
        op.after? roots h = some h' → h.Survives (roots ++ op.arguments) h' slot →
        ∀ (index : Nat) hash key value,
          table.entries[index]? = some (.occupied hash key value) → h'.hashOf key = .ok hash := by
  have hc := hr.sound.coherent
  have hfits := hc.fits slot block hblock
  obtain ⟨table, hbody⟩ := Body.exists_table hfits hkind
  have hvalid := (hc.table hblock hbody).valid
  refine ⟨table, hbody, fun index hash key value hentry => ?_,
    fun i j _ _ _ _ _ _ hne hi hj => hc.stored_ne hblock hbody hne hi hj,
    fun roots op h' hargs hafter hsurvives index hash key value hentry => ?_⟩
  · have hmem := ProbeTable.mem_toList.mpr ⟨index, hentry⟩
    refine ⟨(hc.stored_key hblock hbody hmem).1, hvalid.1.onPath index hash key value hentry,
      hc.find_stored hblock hbody hentry, fun hdict => ?_⟩
    refine hvalid.2 ?_ hash key value hmem
    rw [hbody] at hfits
    exact Body.keepsValues_eq_false hfits hdict
  · obtain ⟨target, hcarries⟩ := carries_after hr.sound hargs hafter
    exact hc.stored_hash hblock hbody hcarries hsurvives (ProbeTable.mem_toList.mpr ⟨index, hentry⟩)

/-- How a dict is made with one entry, a tombstone and a tuple for a key, and then some garbage. -/
def tupleKeyScript : List (List Value × Operation) :=
  [([], .newTuple #[Value.ofInline .smallInt 1]),
   ([Value.ofSlot 0], .newDict 0),
   ([Value.ofSlot 0], .dictPut (Value.ofSlot 1) (Value.ofInline .smallInt 3) Value.nil),
   ([], .dictPut (Value.ofSlot 1) (Value.ofSlot 0) (Value.ofSlot 0)),
   ([], .dictDel (Value.ofSlot 1) (Value.ofInline .smallInt 3)),
   ([Value.ofSlot 1], .newInteger 7)]

theorem tables_keyed_tuple : ∃ (h h' : Heap) (hash : UInt64) (index : Nat),
    h.hashOf (Value.ofSlot 0) = .ok hash ∧
      h.find 1 (Value.ofSlot 0) hash = .ok (.found index) ∧
      Operation.collect.after? [Value.ofSlot 1] h = some h' ∧
      h'.hashOf (Value.ofSlot 0) = .ok hash := by
  obtain ⟨h, hr, hsees, hpasses⟩ : ∃ h : Heap, h.Reachable (fun _ => False) ∧
      (h.block? 1).any (fun block => block.header.kind.isHash &&
        block.body.edges == [Value.ofSlot 0, Value.ofSlot 0]) = true ∧
      h.passes (Value.ofSlot 1) = true := by
    refine exists_reachable_of_script { crampedSettings with heapSize := 1024 } tupleKeyScript ?_
    decide +kernel
  obtain ⟨block, hblock, hdict⟩ := (Option.any_eq_true ..).mp hsees
  obtain ⟨hkind, hedges⟩ := Bool.and_eq_true_iff.mp hdict
  have hedges := eq_of_beq hedges
  obtain ⟨table, hbody, hentries, _, hkept⟩ := hr.tables_keyed hblock hkind
  have hedges : table.edges = [Value.ofSlot 0, Value.ofSlot 0] := by rwa [hbody] at hedges
  -- the only edges are the key and the value of one entry, and both are the tuple
  obtain ⟨hash, key, value, hmem, _⟩ := ProbeTable.mem_edges.mp (hedges ▸ List.mem_cons_self)
  have hkey : key ∈ table.edges := ProbeTable.mem_edges.mpr ⟨hash, key, value, hmem, Or.inl rfl⟩
  obtain rfl : key = Value.ofSlot 0 := by simpa [hedges] using hkey
  obtain ⟨index, hentry⟩ := ProbeTable.mem_toList.mp hmem
  obtain ⟨hhash, _, hfind, _⟩ := hentries index hash _ value hentry
  have hargs : ∀ v ∈ [Value.ofSlot 1] ++ Operation.collect.arguments,
      h.Usable (fun _ => False) v := fun v hv => by
    cases List.mem_singleton.mp hv
    exact usable_of_passes hpasses
  have hroots : ∀ v ∈ [Value.ofSlot 1], h.contains v = true := fun v hv => (hargs v hv).1
  obtain ⟨report, h', hcollect, _⟩ := collect_spec hr.sound hroots
  have hafter : Operation.collect.after? [Value.ofSlot 1] h = some h' := by
    have hperform : Operation.collect.perform [Value.ofSlot 1] h = .ok none h' := by
      simp only [Operation.perform, Operation.effect, bind, EStateM.bind, hcollect]
      rfl
    rw [Operation.after?, hperform]
  refine ⟨h, h', hash, index, hhash, hfind, hafter, ?_⟩
  exact hkept _ _ h' hargs hafter (Or.inr (.start List.mem_cons_self rfl)) index hash _ value hentry

end Heap

end ObjectHeap
