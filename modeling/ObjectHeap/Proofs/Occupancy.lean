import ObjectHeap.Proofs.Histories

/-! # Tables within their load

In every heap of a run, the entries and tombstones of a table take up no more of its slots than
the load factor allows. So a slot is always empty, a search always ends before it has gone around
the table, and an insertion that was given room finds a vacant slot for a key that is not there.
-/

namespace ObjectHeap

namespace Binary64

/-- The rational number that a float stands for, if it is finite. -/
def toRat (x : Binary64) : ℚ := x.steps / unit

theorem Fraction.toRat_eq {x : Binary64} (h : x.Fraction) : x.toRat = x.magnitude / unit := by
  rw [toRat, h.steps_eq, Int.cast_natCast]

theorem Fraction.toRat_lt_one {x : Binary64} (h : x.Fraction) : x.toRat < 1 := by
  rw [h.toRat_eq, div_lt_one (Nat.cast_pos.mpr unit_pos), Nat.cast_lt]
  exact h.lt_one

end Binary64

theorem ProbeTable.Within.le_toRat {t : ProbeTable} {load : Binary64} (hwithin : t.Within load)
    (hload : load.Fraction) : (t.size + t.tombstones : ℚ) ≤ load.toRat * t.capacity := by
  rw [hload.toRat_eq, div_mul_eq_mul_div, le_div_iff₀ (Nat.cast_pos.mpr Binary64.unit_pos),
    mul_comm (load.magnitude : ℚ)]
  exact_mod_cast hwithin

namespace Heap

variable {admits : Value → Prop} {h h' : Heap} {roots starts : List Value} {slot : Nat}

section Digest

variable [Digest]

/-! ## What a step does to tables -/

omit [Digest] in
/-- What a step does to the tables of a heap: each one after it has survived the step and tends
towards what it is now, or is new and within its load. -/
structure Advances (h : Heap) (starts : List Value) (h' : Heap) : Prop where
  settings_eq : h'.settings = h.settings
  table : ∀ slot t', h'.table slot = .ok t' →
    (∃ t, h.table slot = .ok t ∧ h.Survives starts h' slot ∧ t.Tends h.settings t') ∨
    (∀ b, h.block? slot = some b → ¬ h.Survives starts h' slot) ∧
      t'.Within h.settings.loadFactor

theorem Coherent.valid_table (hc : h.Coherent admits) {t : ProbeTable}
    (htable : h.table slot = .ok t) : t.Valid := by
  obtain ⟨b, hb, hbody⟩ := exists_block_of_table htable
  exact (hc.table hb hbody).valid.1

/-- A table that is not altered has survived as it is, or is a new one. -/
theorem Carries.table_cases {target : Target} (hcarries : h.Carries starts target h')
    (hc' : h'.Coherent admits) (hquiet : target.altered? ≠ some slot) {t' : ProbeTable}
    (htable : h'.table slot = .ok t') :
    h.table slot = .ok t' ∧ h.Survives starts h' slot ∨
    (∀ b, h.block? slot = some b → ¬ h.Survives starts h' slot) ∧
      t'.Within h.settings.loadFactor := by
  obtain ⟨b', hb', hbody'⟩ := exists_block_of_table htable
  by_cases hlives : ∃ b, h.block? slot = some b ∧ h.Survives starts h' slot
  · obtain ⟨b, hb, hsurvives⟩ := hlives
    obtain ⟨found, hfound, hallows⟩ := hcarries.carried slot b hb hsurvives
    cases hb'.symm.trans hfound
    exact Or.inl ⟨Heap.table_eq hb ((hallows.table_iff hquiet t').mp hbody'), hsurvives⟩
  · refine Or.inr ⟨fun b hb hsurvives => hlives ⟨b, hb, hsurvives⟩, ?_⟩
    rcases hcarries.born slot b' hb' with hold | hblank | hfills
    · exact absurd hold hlives
    · exact (hblank t' hbody').within (hc'.valid_table htable) _
    · cases target with
      | filled v => exact absurd hfills hquiet
      | _ => exact hfills.elim

/-- All tables advance if the one that is altered does so as it is noted. -/
theorem Carries.advances {target : Target} (hcarries : h.Carries starts target h')
    (hc' : h'.Coherent admits) (halters : ∀ slot, target.altered? = some slot →
      ∃ edits, h.Alters admits starts slot h' edits) : h.Advances starts h' := by
  refine ⟨hcarries.settings_eq, fun slot t' htable => ?_⟩
  by_cases haltered : target.altered? = some slot
  · obtain ⟨edits, halters⟩ := halters slot haltered
    cases halters with
    | put _ _ hsurvives hstores =>
        obtain ⟨hash, t, found, _, hbefore, hafter, _, htends⟩ := hstores
        cases htable.symm.trans hafter
        exact Or.inl ⟨t, hbefore, hsurvives, htends⟩
    | del hsurvives hremoves =>
        obtain ⟨hash, stored, value, t, found, hbefore, hafter, _, _, htends⟩ := hremoves
        cases htable.symm.trans hafter
        exact Or.inl ⟨t, hbefore, hsurvives, htends⟩
    | fill hslot hmade =>
        obtain ⟨found, t, hfound, hafter, hfresh, hwithin, _⟩ := hmade.table
        cases hslot.symm.trans hfound
        cases htable.symm.trans hafter
        exact Or.inr ⟨hfresh, hcarries.settings_eq ▸ hwithin⟩
  · exact (hcarries.table_cases hc' haltered htable).imp_left fun ⟨hbefore, hsurvives⟩ =>
      ⟨t', hbefore, hsurvives, .refl ..⟩

/-- Operations make tables advance, be they done or refused. -/
theorem advances_after {op : Operation} (hs : h.Sound admits 0)
    (hargs : ∀ v ∈ roots ++ op.arguments, h.Usable admits v)
    (hafter : op.after? roots h = some h') : h.Advances (roots ++ op.arguments) h' := by
  have hyields := op.perform_alters hs hargs
  unfold Operation.after? at hafter
  split at hafter
  next hok =>
    cases hafter
    obtain ⟨hdone, halters⟩ := hyields.result hok
    exact hdone.carries.advances hdone.sound.coherent fun slot hslot => ⟨_, halters slot hslot⟩
  next hrefused =>
    cases hafter
    have hretreats := hyields.refusal hrefused
    exact hretreats.carries.advances hretreats.sound.coherent fun slot hslot =>
      absurd hslot (Option.some_ne_none slot).symm
  next => cases hafter

/-- All tables of a run are within their load. -/
theorem Reachable.within (hr : h.Reachable admits) {t : ProbeTable}
    (htable : h.table slot = .ok t) : t.Within h.settings.loadFactor := by
  induction hr generalizing slot t with
  | new hnew =>
      obtain ⟨_, rfl⟩ := flaw?_of_new hnew
      obtain ⟨b, hb, _⟩ := exists_block_of_table htable
      simp [block?] at hb
  | step roots op hr hargs hafter ih =>
      have hadvances := advances_after hr.sound hargs hafter
      rw [hadvances.settings_eq]
      rcases hadvances.table slot t htable with ⟨before, hbefore, _, htends⟩ | ⟨_, hwithin⟩
      · exact htends.within (ih hbefore)
      · exact hwithin

/-! ## Searches after room was made -/

/-- Whether a search for a key that is not in a table finds a vacant slot, once the table was
given room for one more entry. -/
def FindsVacant (h : Heap) (roots : List Value) (slot : Nat) (key value : Value) : Prop :=
  ∀ hash h', h.hashOf key = .ok hash → (∀ index, h.find slot key hash ≠ .ok (.found index)) →
    reserveSlot roots slot [key, value] h = .ok () h' →
    ∃ index, h'.find slot key hash = .ok (.vacant index)

/-- A key that a search does not find is not there. -/
theorem lacks_of_find (hc : h.Coherent admits) {b : Block} {t : ProbeTable}
    (hb : h.block? slot = some b) (hbody : b.body = .hash t) {key : Value} {hash : UInt64}
    (hkey : h.hashOf key = .ok hash) (husable : h.Usable admits key)
    (hmissing : ∀ index, h.find slot key hash ≠ .ok (.found index)) :
    t.Lacks hash (h.isKey key) := by
  obtain ⟨answer, hfind, hanswers⟩ := find_spec hc hb hbody hkey husable
  cases answer with
  | found index => exact absurd hfind (hmissing index)
  | full => exact hanswers.2
  | vacant index => exact hanswers.2.2

/-- Room in a table that may change is room for the key that it was made for. -/
theorem Sound.findsVacant (hs : h.Sound admits 0) (hroots : ∀ v ∈ roots, h.Usable admits v)
    {b : Block} (hb : h.block? slot = some b) (hkind : b.header.kind.isHash = true)
    (hmutable : b.header.kind.isMutable = true) {key value : Value} (hkey : h.Usable admits key)
    (hvalue : h.Usable admits value) : h.FindsVacant roots slot key value := by
  intro hash h' hhash hmissing hreserve
  obtain ⟨t, hbody⟩ := Body.exists_table (hs.coherent.fits slot b hb) hkind
  have hfrozen := Kind.isFrozen_of_isMutable hmutable
  have hoperands : ∀ w ∈ [key, value], h.Usable admits w := by simp [hkey, hvalue]
  obtain ⟨t', hwidens, he⟩ :=
    (reserveSlot_yields hs hroots hb hbody hfrozen hoperands).result hreserve
  obtain ⟨b', hb', _, hbody'⟩ := he.block
  have hlacks := lacks_of_find hs.coherent hb hbody hhash hkey hmissing
  obtain ⟨hhash', hkey', hlacks'⟩ :=
    he.lacks hs hb hbody hfrozen hwidens.perm hhash hkey (by simp) hlacks
  have hload := Settings.fraction_of_flaw? hs.consistent.settings_ok
  have hroom := ProbeTable.room_of_needsRehash hload hwidens.roomy
  obtain ⟨index, hfind, _⟩ :=
    find_vacant he.sound.coherent hb' hbody' hhash' hkey' hlacks' (by omega)
  exact ⟨index, hfind⟩

/-- A frozen set that is being filled has room as it is. -/
theorem Filling.findsVacant {left : Nat} {items : List Value} {print : Value → Nat}
    {ledger : Ledger} (hf : h.Filling admits slot (left + 1) items print ledger) {item : Value}
    (hitem : item ∈ items) : h.FindsVacant roots slot item Value.nil := by
  intro hash h' hhash hmissing hreserve
  obtain ⟨b, t, hb, _, hbody, hload, _⟩ := hf.table
  have hfraction := Settings.fraction_of_flaw? hf.sound.consistent.settings_ok
  have hroomy := ProbeTable.needsRehash_of_left hfraction hload
  have hreserved : Yields admits (reserveSlot roots slot [item, Value.nil]) h
      (fun _ h' => h' = h ∧ t.size < t.capacity) fun _ _ => False :=
    reserveSlot_roomy hf.sound hb hbody hroomy _
  obtain ⟨rfl, hroom⟩ := hreserved.result hreserve
  have husable := (hf.items item hitem).usable
  obtain ⟨index, hfind, _⟩ := find_vacant hf.sound.coherent hb hbody hhash husable
    (lacks_of_find hf.sound.coherent hb hbody hhash husable hmissing) hroom
  exact ⟨index, hfind⟩

omit [Digest] in
theorem eq_ok_of_toOption {ε α : Type} {x : Except ε α} {a : α} (hx : x.toOption = some a) :
    x = .ok a := by
  cases x with
  | ok b => exact congrArg Except.ok (Option.some.inj hx)
  | error => cases hx

/-- How a dict with four slots is filled to its load, and then gets a tombstone. -/
def brimmingScript : List (List Value × Operation) :=
  [([], .newDict 0),
   ([], .dictPut (Value.ofSlot 0) (small 1) (small 10)),
   ([], .dictPut (Value.ofSlot 0) (small 2) (small 20)),
   ([], .dictPut (Value.ofSlot 0) (small 3) (small 30)),
   ([], .dictDel (Value.ofSlot 0) (small 1))]

/-- The load factor is respected. Every dict, set and frozen set has a power of two of slots, of
which the entries and tombstones take up no more than the load factor, and so not all. Some slot
is empty, and no search goes around the table. When an insertion has made room for a key that is
not there, the search after that finds a vacant slot: in a dict or set, and in a frozen set that
is being made, at each of its items. -/
theorem Reachable.load_respected (hr : h.Reachable admits) :
    (∀ slot b, h.block? slot = some b → b.header.kind.isHash = true →
      ∃ t, b.body = .hash t ∧ t.capacity.isPowerOfTwo ∧
        (t.size + t.tombstones : ℚ) ≤ h.settings.loadFactor.toRat * t.capacity ∧
        h.settings.loadFactor.toRat * t.capacity < t.capacity ∧
        (∃ index : Nat, t.entries[index]? = some .empty) ∧
        ∀ hash test, t.probe hash test ≠ .ok .full) ∧
    (∀ roots slot b key value, (∀ v ∈ key :: value :: roots, h.Usable admits v) →
      h.block? slot = some b → b.header.kind = .dict ∨ b.header.kind = .set →
      h.FindsVacant roots slot key value) ∧
    ∀ roots items n item made mid, (∀ v ∈ roots ++ items, h.Usable admits v) →
      h.checkKeys items = .ok () → items[n]? = some item →
      fillSet roots items n (h.protectAll items) = .ok made mid →
      mid.FindsVacant roots made.2 item Value.nil := by
  have hs := hr.sound
  have hload := Settings.fraction_of_flaw? hs.consistent.settings_ok
  refine ⟨fun slot b hb hkind => ?_, fun roots slot b key value husable hb hkind => ?_,
    fun roots items n item made mid husable hkeys hitem hfill => ?_⟩
  · obtain ⟨t, hbody⟩ := Body.exists_table (hs.coherent.fits slot b hb) hkind
    have hvalid := (hs.coherent.table hb hbody).valid.1
    have hwithin := hr.within (table_eq hb hbody)
    obtain ⟨index, hempty⟩ := hvalid.exists_empty (hwithin.used_lt hload hvalid)
    exact ⟨t, hbody, hvalid.capacity_pow, hwithin.le_toRat hload,
      mul_lt_of_lt_one_left (Nat.cast_pos.mpr hvalid.capacity_pos) hload.toRat_lt_one,
      ⟨index, hempty⟩, ProbeTable.probe_ne_full hempty⟩
  · obtain ⟨hkey, hvalue, hroots⟩ := by simpa only [List.forall_mem_cons] using husable
    exact hs.findsVacant hroots hb (by rcases hkind with hkind | hkind <;> rw [hkind] <;> rfl)
      (by rcases hkind with hkind | hkind <;> rw [hkind] <;> rfl) hkey hvalue
  · obtain ⟨hroots, hitems⟩ := List.forall_mem_append.mp husable
    have hkeyable := (checkKeys_gives hs.coherent hitems).result hkeys
    obtain ⟨hn, _⟩ := List.getElem?_eq_some_iff.mp hitem
    obtain ⟨_, _, hfilling⟩ := (fillSet_yields (hs.protectAll hitems) hroots hitems
      (fun w hw => (hkeyable w hw).protectAll hs.coherent (hitems w hw) items)
      (fun w hw _ hslot => .register (mem_protectAll.mpr (Or.inr hw)) hslot)
      (Nat.le_of_lt hn)).result hfill
    have hleft : items.length - n = items.length - (n + 1) + 1 := by omega
    rw [hleft] at hfilling
    exact hfilling.findsVacant (List.mem_of_getElem? hitem)

end Digest

/-- Three of four slots are in use, and the next key makes the table move. -/
theorem load_respected_brimming : ∃ (h h' : Heap) (t : ProbeTable) (hash : UInt64) (index : Nat),
    h.table 0 = .ok t ∧ t.size = 2 ∧ t.tombstones = 1 ∧ t.capacity = 4 ∧
      3 ≤ h.settings.loadFactor.toRat * 4 ∧ (∀ hash test, t.probe hash test ≠ .ok .full) ∧
      h.hashOf (small 4) = .ok hash ∧ reserveSlot [] 0 [small 4, Value.nil] h = .ok () h' ∧
      h'.find 0 (small 4) hash = .ok (.vacant index) := by
  obtain ⟨h, hr, ⟨hkind, hcounts⟩, hpasses, hprobe, hreserve⟩ : ∃ h : Heap,
      h.Reachable (fun _ => False) ∧
      ((h.block? 0).map (·.header.kind) = some .dict ∧
        (h.table 0).toOption.map (fun t => (t.size, t.tombstones, t.capacity)) = some (2, 1, 4)) ∧
      h.passes (small 4) = true ∧
      ((h.hashOf (small 4)).toOption.bind fun hash => (h.find 0 (small 4) hash).toOption) =
        some (.vacant 0) ∧
      concludes (reserveSlot [] 0 [small 4, Value.nil]) h (fun _ _ => true) = true := by
    refine exists_reachable_of_script { crampedSettings with heapSize := 1024 } brimmingScript ?_
    decide +kernel
  obtain ⟨b, hb, hkind⟩ := Option.map_eq_some_iff.mp hkind
  obtain ⟨hash, hhash, hprobe⟩ := Option.bind_eq_some_iff.mp hprobe
  have hhash := eq_ok_of_toOption hhash
  have hprobe := eq_ok_of_toOption hprobe
  obtain ⟨_, h', hreserve, _⟩ := exists_of_concludes hreserve
  obtain ⟨hwithin, hvacant, _⟩ := hr.load_respected
  obtain ⟨t, hbody, _, hused, _, _, hends⟩ := hwithin 0 b hb (by rw [hkind]; rfl)
  have htable := table_eq hb hbody
  rw [htable] at hcounts
  obtain ⟨hsize, htombstones, hcapacity⟩ : t.size = 2 ∧ t.tombstones = 1 ∧ t.capacity = 4 := by
    simpa [Except.toOption] using hcounts
  rw [hsize, htombstones, hcapacity] at hused
  obtain ⟨index, hfind⟩ := hvacant [] 0 b (small 4) Value.nil
    (by simp [usable_of_passes hpasses, usable_nil]) hb (Or.inl hkind) hash h' hhash
    (fun index hfound => by rw [hprobe] at hfound; cases hfound) hreserve
  refine ⟨h, h', t, hash, index, htable, hsize, htombstones, hcapacity, ?_, hends, hhash, hreserve,
    hfind⟩
  norm_num at hused
  exact hused

end Heap

end ObjectHeap
