import ObjectHeap.Proofs.Histories

/-! # Size hints

A dict or set is made with a hint, the number of keys that it is to hold. Its slots are enough for
these: as long as no more than `hint` different keys are put into it, a put writes one slot and is
never refused. No rehash takes place, no collection either, and the number of slots stays what it
was when the table was made. It does not matter how often and in which order the keys are put, nor
what else goes on in between.
-/

namespace ObjectHeap

namespace ProbeTable

variable {t t' : ProbeTable}

/-- Whether a table has wasted no slot and has room for some entries in all. -/
structure Roomy (t : ProbeTable) (load : Binary64) (entries : Nat) : Prop where
  tombstones_eq : t.tombstones = 0
  room : entries * Binary64.unit ≤ t.capacity * load.magnitude

theorem Roomy.places {load : Binary64} {entries : Nat} (h : t.Roomy load entries)
    (hplaces : t.Places t') : t'.Roomy load entries :=
  ⟨Nat.le_zero.mp (Nat.le_trans hplaces.tombstones_le (Nat.le_of_eq h.tombstones_eq)),
    hplaces.capacity_eq.symm ▸ h.room⟩

theorem Roomy.needsRehash_eq {load : Binary64} {entries : Nat} (h : t.Roomy load entries)
    (hload : load.Fraction) (hsize : t.size < entries) : t.needsRehash load = false := by
  rw [needsRehash_eq_false_iff hload, h.tombstones_eq]
  exact Nat.le_trans (Nat.mul_le_mul_right _ hsize) h.room

/-- The slots that a number of entries asks for are room for these. -/
theorem roomy_blank {load : Binary64} (hload : load.Fraction) {entries least slots : Nat}
    (hslots : capacityFor? entries load least = some slots) (hlt : slots < 2 ^ 52)
    (keepsValues : Bool) : (blank slots keepsValues).Roomy load entries := by
  refine ⟨rfl, ?_⟩
  rw [capacity_blank]
  exact (capacityFor?_spec hload hslots).2.2 hlt

end ProbeTable

/-- Whether an operation puts a key into the dict or set `v`. -/
inductive Operation.PutsInto (v key : Value) : Kind → Operation → Prop where
  | dict (value : Value) : PutsInto v key .dict (.dictPut v key value)
  | set : PutsInto v key .set (.setPut v key)

theorem Operation.PutsInto.mem_arguments {v key : Value} {kind : Kind} {op : Operation}
    (hputs : op.PutsInto v key kind) : key ∈ op.arguments := by
  cases hputs <;> simp [arguments]

/-- The value that an operation puts under a key. A set keeps none. -/
def Operation.valuePut : Operation → Value
  | .dictPut _ _ value => value
  | _ => Value.nil

/-- The kind and the hint of a dict or set that an operation makes. -/
def Operation.sized? : Operation → Option (Kind × Nat)
  | .newDict hint => some (.dict, hint)
  | .newSet kind hint => some (kind, hint)
  | _ => none

theorem Body.isHash_of_fits {t : ProbeTable} {kind : Kind}
    (hfits : (Body.hash t).fits kind = true) : kind.isHash = true := by
  cases kind <;> first | rfl | cases hfits

namespace Heap

/-- Heaps in which keys are put into the dict or set `v` after it was made with room for `hint`
keys and `slots` slots, with the different keys that were put into it, the latest first. Other
operations may come in between, as long as `v` outlives them and they leave its table as it is. -/
inductive Stocked [Digest] (admits : Value → Prop) (v : Value) (kind : Kind) (hint slots : Nat) :
    Heap → List Value → Prop where
  | made {h h' : Heap} (roots : List Value) (op : Operation) : h.Reachable admits →
      (∀ w ∈ roots ++ op.arguments, h.Usable admits w) → op.sized? = some (kind, hint) →
      op.perform roots h = .ok (some v) h' → h'.capacity v = .ok slots →
      Stocked admits v kind hint slots h' []
  | put {h h' : Heap} {keys : List Value} {key : Value} (roots : List Value) (op : Operation) :
      Stocked admits v kind hint slots h keys →
      (∀ w ∈ roots ++ op.arguments, h.Usable admits w) → op.PutsInto v key kind →
      (∀ k ∈ keys, h.valuesEqual key k = .ok false) → keys.length < hint →
      op.perform roots h = .ok none h' → Stocked admits v kind hint slots h' (key :: keys)
  | again {h h' : Heap} {keys : List Value} {key : Value} (roots : List Value) (op : Operation) :
      Stocked admits v kind hint slots h keys →
      (∀ w ∈ roots ++ op.arguments, h.Usable admits w) → op.PutsInto v key kind →
      (∃ k ∈ keys, h.valuesEqual key k = .ok true) →
      op.perform roots h = .ok none h' → Stocked admits v kind hint slots h' keys
  | other {h h' : Heap} {keys : List Value} (roots : List Value) (op : Operation) :
      Stocked admits v kind hint slots h keys →
      (∀ w ∈ roots ++ op.arguments, h.Usable admits w) → op.after? roots h = some h' →
      (∀ slot, v.slot? = some slot →
        h.Survives (roots ++ op.arguments) h' slot ∧ h'.table slot = h.table slot) →
      Stocked admits v kind hint slots h' keys

section Digest

variable [Digest] {admits : Value → Prop} {h h' : Heap} {roots : List Value} {slot : Nat}
  {b : Block} {t : ProbeTable} {v key : Value}

/-! ## Insertions without a rehash -/

/-- An insertion into a table that has an equal key, or needs no rehash, writes one slot. -/
theorem Sound.hashInsert_places (hs : h.Sound admits 0) (roots : List Value)
    (hb : h.block? slot = some b) (hbody : b.body = .hash t) {hash : UInt64} (value : Value)
    (hkey : h.hashOf key = .ok hash) (husable : h.Usable admits key)
    (hroom : (∃ entry ∈ t.toList, h.fingerprint entry.2.1 = h.fingerprint key) ∨
      t.needsRehash h.settings.loadFactor = false) :
    ∃ t', hashInsert roots slot key value h = .ok () (h.setBody slot (.hash t')) ∧
      t.Places t' ∧ ProbeTable.Binds h.fingerprint hash key value t t' := by
  have hyields : Yields (fun _ => False) (hashInsert roots slot key value) h
      (fun _ h' => ∃ t', t.Places t' ∧ ProbeTable.Binds h.fingerprint hash key value t t' ∧
        h' = h.setBody slot (.hash t')) fun _ _ => False := by
    refine hashInsert_yields hs hb hbody hkey husable
      (fun _ _ t' _ _ _ hplaces _ hbinds => ⟨t', hplaces, hbinds, rfl⟩) fun hlacks => ?_
    have hfresh := hs.coherent.ne_of_lacks hb hbody hkey husable hlacks
    have hroomy := hroom.resolve_left fun ⟨entry, hentry, hsame⟩ => hfresh entry hentry hsame
    refine Yields.bind (reserveSlot_roomy hs hb hbody hroomy _) fun _ _ hsame => ?_
    obtain ⟨rfl, hlt⟩ := hsame
    refine (fillVacant_yields hs hb hbody hkey husable hlacks hlt).mono (fun _ h' hfilled => ?_)
      fun _ _ hd => hd
    obtain ⟨t', _, hplaces, hperm, rfl⟩ := hfilled
    exact ⟨t', hplaces, .added hfresh hperm, rfl⟩
  obtain ⟨_, _, hok, t', hplaces, hbinds, rfl⟩ := hyields.exists_ok
  exact ⟨t', hok, hplaces, hbinds⟩

/-! ## What a table provides -/

/-- Whether `v` is a dict or set of a kind with some slots, which has some keys and room for
`hint` of them in all. -/
def Provides (h : Heap) (v : Value) (kind : Kind) (hint slots : Nat) (keys : List Value) : Prop :=
  ∃ slot b t, v.slot? = some slot ∧ h.block? slot = some b ∧ b.header.kind = kind ∧
    b.body = .hash t ∧ t.Roomy h.settings.loadFactor hint ∧ t.capacity = slots ∧
    (t.toList.map fun entry => entry.2.1).Perm keys

variable {kind : Kind} {hint slots : Nat} {keys : List Value}

theorem Provides.capacity_eq (hp : h.Provides v kind hint slots keys) (hc : h.Coherent admits) :
    h.capacity v = .ok slots := by
  obtain ⟨slot, b, t, hslot, hb, rfl, hbody, _, rfl, _⟩ := hp
  have hexpect := expectBlock_eq hslot hb "sequence or hash"
    (fun kind => kind.isSequence || kind.isHash)
    (by simp [Body.isHash_of_fits (hbody ▸ hc.fits slot b hb)])
  simp only [capacity, hexpect, bind, Except.bind, hbody]
  rfl

omit [Digest] in
theorem mem_keys_iff (hperm : (t.toList.map fun entry => entry.2.1).Perm keys) :
    key ∈ keys ↔ ∃ entry ∈ t.toList, entry.2.1 = key := by
  rw [← hperm.mem_iff, List.mem_map]

theorem Provides.stored (hp : h.Provides v kind hint slots keys) (hc : h.Coherent admits)
    (hkey : key ∈ keys) : h.Usable admits key ∧ h.Keyable key := by
  obtain ⟨slot, b, t, _, hb, _, hbody, _, _, hperm⟩ := hp
  obtain ⟨⟨hash, _, value⟩, hmem, rfl⟩ := (mem_keys_iff hperm).mp hkey
  obtain ⟨hhash, hstored⟩ := hc.stored_key hb hbody hmem
  exact ⟨hstored, hash, hhash⟩

/-- The keys that a table provides can be compared with any other key by their fingerprints. -/
theorem Provides.valuesEqual_eq (hp : h.Provides v kind hint slots keys) (hc : h.Coherent admits)
    (husable : h.Usable admits key) (hkey : h.Keyable key) {k : Value} (hk : k ∈ keys) :
    h.valuesEqual key k = .ok (decide (h.fingerprint key = h.fingerprint k)) :=
  hc.valuesEqual_keys hkey (hp.stored hc hk).2 husable (hp.stored hc hk).1

/-- A key without an equal one among the keys of a table differs from all of them. -/
theorem Provides.differs (hp : h.Provides v kind hint slots keys) (hc : h.Coherent admits)
    (husable : h.Usable admits key) (hkey : h.Keyable key)
    (hnew : ¬ ∃ k ∈ keys, h.valuesEqual key k = .ok true) {k : Value} (hk : k ∈ keys) :
    h.valuesEqual key k = .ok false := by
  have hequal := hp.valuesEqual_eq hc husable hkey hk
  cases hsame : decide (h.fingerprint key = h.fingerprint k) with
  | false => rw [hequal, hsame]
  | true => exact absurd ⟨k, hk, by rw [hequal, hsame]⟩ hnew

/-- A table that survives, and is left as it is, provides what it did. -/
theorem Provides.survive (hp : h.Provides v kind hint slots keys) (hc : h.Coherent admits)
    {starts : List Value} {target : Target} (hcarries : h.Carries starts target h')
    (hleft : ∀ slot, v.slot? = some slot →
      h.Survives starts h' slot ∧ h'.table slot = h.table slot) :
    h'.Provides v kind hint slots keys := by
  obtain ⟨slot, b, t, hslot, hb, hkind, hbody, hroomy, hcapacity, hperm⟩ := hp
  obtain ⟨hsurvives, htable⟩ := hleft slot hslot
  obtain ⟨b', hb', hallows⟩ := hcarries.carried slot b hb hsurvives
  obtain ⟨found, hfound, hbody'⟩ := exists_block_of_table (htable.trans (table_eq hb hbody))
  cases hb'.symm.trans hfound
  exact ⟨slot, b', t, hslot, hb', (hallows.alike (hc.fits slot b hb)).kind_eq.trans hkind, hbody',
    hcarries.settings_eq ▸ hroomy, hcapacity, hperm⟩

/-! ## Making a table and putting keys into it -/

theorem newTable_provides {keepsValues : Bool} (hs : h.Sound admits 0)
    (hroots : ∀ w ∈ roots, h.Usable admits w)
    (hfits : ∀ slots, (Body.hash (ProbeTable.blank slots keepsValues)).fits kind = true)
    (hint : Nat) :
    Yields admits (do
      let slots ← (← get).hashCapacity hint keepsValues
      allocate roots kind (.hash (← ProbeTable.withCapacity slots keepsValues))) h
      (fun v h' => ∃ slots, h'.Provides v kind hint slots []) (fun _ _ => True) := by
  refine (newTable_yields hs hroots hfits hint).mono (fun v h' hmade => ?_) fun _ _ _ => trivial
  obtain ⟨slots, size, slot, hcapacity, hblock, hsize, hslot, hallocated⟩ := hmade
  obtain ⟨b, hb, hkind, hbody, _⟩ := hallocated.block
  have hload := Settings.fraction_of_flaw? hs.consistent.settings_ok
  have hslots := ProbeTable.slots_le_of_hashBlock? hblock
  have hheap : h.settings.heapSize < 2 ^ 52 :=
    Nat.lt_trans hs.consistent.heapSize_lt (by decide)
  have hroomy := ProbeTable.roomy_blank hload hcapacity (by omega) keepsValues
  refine ⟨slots, slot, b, _, hslot, hb, hkind, hbody, hallocated.settings_eq ▸ hroomy,
    ProbeTable.capacity_blank .., ?_⟩
  rw [ProbeTable.toList_blank]
  exact List.Perm.refl []

/-- A dict or set that is made provides room for the keys of its hint. -/
theorem perform_provides (hs : h.Sound admits 0) (hroots : ∀ w ∈ roots, h.Usable admits w)
    {op : Operation} (hsized : op.sized? = some (kind, hint)) :
    Yields admits (op.perform roots) h
      (fun result h' => ∀ v ∈ result, ∃ slots, h'.Provides v kind hint slots [])
      (fun _ _ => True) := by
  have hsome {step : HeapM Value} (hmade : Yields admits step h
      (fun v h' => ∃ slots, h'.Provides v kind hint slots []) fun _ _ => True) :
      Yields admits (some <$> step) h
        (fun result h' => ∀ v ∈ result, ∃ slots, h'.Provides v kind hint slots [])
        fun _ _ => True :=
    Yields.map (hmade.mono (fun v h' hv w hw => Option.mem_some.mp hw ▸ hv) fun _ _ hd => hd)
  cases op with
  | newDict n =>
      cases hsized
      exact hsome (newTable_provides hs hroots (fun _ => rfl) hint)
  | newSet k n =>
      cases hsized
      refine hsome ?_
      unfold newSet
      dsimp only
      split
      · exact Yields.throw_bind trivial
      next hkind => exact newTable_provides hs hroots (fits_set hkind) hint
  | _ => cases hsized

theorem dictPut_eq (hslot : h.dictSlot v = .ok slot) (key value : Value) :
    dictPut roots v key value h = hashInsert roots slot key value h := by
  change (liftM (h.dictSlot v) >>= fun slot => hashInsert roots slot key value : HeapM Unit) h = _
  rw [hslot]
  rfl

theorem setPut_eq (hslot : h.mutableSetSlot v = .ok slot) (key : Value) :
    setPut roots v key h = hashInsert roots slot key Value.nil h := by
  change (liftM (h.mutableSetSlot v) >>= fun slot => hashInsert roots slot key Value.nil :
    HeapM Unit) h = _
  rw [hslot]
  rfl

omit [Digest] in
theorem mutableSetSlot_eq (hslot : v.slot? = some slot) (hb : h.block? slot = some b)
    (hkind : b.header.kind = .set) : h.mutableSetSlot v = .ok slot := by
  have hset : h.setSlot v = .ok slot :=
    expectSlot_eq hslot hb "set" (fun kind => kind == .set || kind == .frozenSet)
      (by rw [hkind]; rfl)
  rw [mutableSetSlot, hset]
  refine (liftM_bind_eq (block_eq hb) _).trans ?_
  exact if_pos hkind

/-- A put into a dict or set of the right kind inserts the key into its table. -/
theorem perform_putsInto (roots : List Value) {op : Operation} (hputs : op.PutsInto v key kind)
    (hslot : v.slot? = some slot) (hb : h.block? slot = some b) (hkind : b.header.kind = kind) :
    op.perform roots h = (hashInsert roots slot key op.valuePut h).map fun _ => none := by
  have heffect (step : HeapM Unit) :
      Operation.effect step h = (step h).map fun _ => none := by
    change EStateM.bind step _ h = _
    unfold EStateM.bind
    cases step h <;> rfl
  cases hputs with
  | dict value =>
      have hdict : h.dictSlot v = .ok slot :=
        expectSlot_eq hslot hb "dict" (· == .dict) (by rw [hkind]; rfl)
      refine (heffect _).trans ?_
      rw [dictPut_eq hdict]
      rfl
  | set =>
      refine (heffect _).trans ?_
      rw [setPut_eq (mutableSetSlot_eq hslot hb hkind)]
      rfl

theorem keyable_of_hashInsert {value : Value} {u : Unit}
    (hok : hashInsert roots slot key value h = .ok u h') : h.Keyable key := by
  cases hhash : h.hashOf key with
  | ok hash => exact ⟨hash, hhash⟩
  | error stop =>
      unfold hashInsert at hok
      change (liftM (h.hashOf key) >>= _ : HeapM Unit) h = _ at hok
      rw [hhash] at hok
      cases hok

/-- What a put has stored is a key. -/
theorem Provides.keyable (hp : h.Provides v kind hint slots keys) {op : Operation}
    (hputs : op.PutsInto v key kind) (hok : op.perform roots h = .ok none h') :
    h.Keyable key := by
  obtain ⟨slot, b, t, hslot, hb, hkind, _⟩ := hp
  rw [perform_putsInto roots hputs hslot hb hkind] at hok
  cases hinsert : hashInsert roots slot key op.valuePut h with
  | ok u mid => exact keyable_of_hashInsert hinsert
  | error stop mid =>
      rw [hinsert] at hok
      cases hok

/-- A put of a key that has an equal one in the table, or for which there is room, writes one
slot, which binds the key, and does nothing else. -/
theorem Provides.put (hp : h.Provides v kind hint slots keys) (hs : h.Sound admits 0)
    (roots : List Value) {op : Operation} (hputs : op.PutsInto v key kind)
    (husable : h.Usable admits key) (hkey : h.Keyable key)
    (hroom : (∃ k ∈ keys, h.valuesEqual key k = .ok true) ∨ keys.length < hint) :
    ∃ hash slot t t', h.hashOf key = .ok hash ∧ v.slot? = some slot ∧ h.table slot = .ok t ∧
      t.Places t' ∧ ProbeTable.Binds h.fingerprint hash key op.valuePut t t' ∧
      op.perform roots h = .ok none (h.setBody slot (.hash t')) ∧
      ((∃ k ∈ keys, h.valuesEqual key k = .ok true) →
        (h.setBody slot (.hash t')).Provides v kind hint slots keys) ∧
      ((∀ k ∈ keys, h.valuesEqual key k = .ok false) →
        (h.setBody slot (.hash t')).Provides v kind hint slots (key :: keys)) := by
  have hc := hs.coherent
  have hequal {k : Value} (hk : k ∈ keys) := hp.valuesEqual_eq hc husable hkey hk
  obtain ⟨slot, b, t, hslot, hb, hkind, hbody, hroomy, hcapacity, hperm⟩ := hp
  obtain ⟨hash, hhash⟩ := hkey
  have hperform := perform_putsInto roots hputs hslot hb hkind
  have hstored : (∃ k ∈ keys, h.valuesEqual key k = .ok true) →
      ∃ entry ∈ t.toList, h.fingerprint entry.2.1 = h.fingerprint key := by
    rintro ⟨k, hk, hsame⟩
    obtain ⟨entry, hentry, rfl⟩ := (mem_keys_iff hperm).mp hk
    rw [hequal hk] at hsame
    exact ⟨entry, hentry, (of_decide_eq_true (Except.ok.inj hsame)).symm⟩
  have hneeds (hlt : keys.length < hint) : t.needsRehash h.settings.loadFactor = false := by
    refine hroomy.needsRehash_eq (Settings.fraction_of_flaw? hs.consistent.settings_ok) ?_
    rwa [(hc.table hb hbody).valid.1.size_eq, ← List.length_map (f := fun entry => entry.2.1),
      hperm.length_eq]
  obtain ⟨t', hinsert, hplaces, hbinds⟩ := hs.hashInsert_places roots hb hbody op.valuePut hhash
    husable (hroom.imp hstored hneeds)
  have hprovides {keys' : List Value} (hkeys : (t'.toList.map fun entry => entry.2.1).Perm keys') :
      (h.setBody slot (.hash t')).Provides v kind hint slots keys' :=
    ⟨slot, _, t', hslot, block?_setBody_self hb _, hkind, rfl, hroomy.places hplaces,
      hplaces.capacity_eq.trans hcapacity, hkeys⟩
  refine ⟨hash, slot, t, t', hhash, hslot, table_eq hb hbody, hplaces, hbinds,
    by rw [hperform, hinsert]; rfl, ?_⟩
  cases hbinds with
  | added hfresh hadded =>
      refine ⟨fun hold => ?_, fun _ => hprovides ((hadded.map _).trans (hperm.cons key))⟩
      obtain ⟨entry, hentry, hsame⟩ := hstored hold
      exact absurd hsame (hfresh entry hentry)
  | @replaced stored old rest hsame hbefore hafter =>
      refine ⟨fun _ => hprovides ((hafter.map _).trans ((hbefore.map _).symm.trans hperm)),
        fun hnew => ?_⟩
      have hmem := hbefore.mem_iff.mpr List.mem_cons_self
      have hk := (mem_keys_iff hperm).mpr ⟨_, hmem, rfl⟩
      have hdiffers := hnew stored hk
      rw [hequal hk, decide_eq_true hsame.symm] at hdiffers
      cases hdiffers

/-! ## Runs -/

theorem Stocked.reachable (hst : Stocked admits v kind hint slots h keys) :
    h.Reachable admits := by
  induction hst with
  | made roots op hr hargs _ hok _ => exact .step roots op hr hargs (by rw [Operation.after?, hok])
  | put roots op _ hargs _ _ _ hok ih =>
      exact .step roots op ih hargs (by rw [Operation.after?, hok])
  | again roots op _ hargs _ _ hok ih =>
      exact .step roots op ih hargs (by rw [Operation.after?, hok])
  | other roots op _ hargs hafter _ ih => exact .step roots op ih hargs hafter

/-- Along a run, a table provides what it was made for. -/
theorem Stocked.provides (hst : Stocked admits v kind hint slots h keys) :
    h.Provides v kind hint slots keys := by
  induction hst with
  | @made h h' roots op hr hargs hsized hok hcapacity =>
      have hroots (w : Value) (hw : w ∈ roots) := hargs w (List.mem_append_left _ hw)
      obtain ⟨slots', hp⟩ := (perform_provides hr.sound hroots hsized).result hok v rfl
      have hs' := ((op.perform_yields hr.sound hargs).result hok).sound
      cases hcapacity.symm.trans (hp.capacity_eq hs'.coherent)
      exact hp
  | put roots op hst hargs hputs hnew hlt hok ih =>
      have husable := hargs _ (List.mem_append_right _ hputs.mem_arguments)
      obtain ⟨_, _, _, _, _, _, _, _, _, hput, _, hadded⟩ := ih.put hst.reachable.sound roots hputs
        husable (ih.keyable hputs hok) (Or.inr hlt)
      cases hput.symm.trans hok
      exact hadded hnew
  | again roots op hst hargs hputs hold hok ih =>
      have husable := hargs _ (List.mem_append_right _ hputs.mem_arguments)
      obtain ⟨_, _, _, _, _, _, _, _, _, hput, hkept, _⟩ := ih.put hst.reachable.sound roots hputs
        husable (ih.keyable hputs hok) (Or.inl hold)
      cases hput.symm.trans hok
      exact hkept hold
  | other roots op hst hargs hafter hleft ih =>
      obtain ⟨target, hcarries⟩ := carries_after hst.reachable.sound hargs hafter
      exact ih.survive hst.reachable.sound.coherent hcarries hleft

/-- Performs operations one after another. -/
def performAll : List (List Value × Operation) → HeapM Unit
  | [] => pure ()
  | (roots, op) :: rest => do
    let _ ← op.perform roots
    performAll rest

/-- A key that is equal to one of some keys. -/
structure Classed (h : Heap) (admits : Value → Prop) (classes : List Value) (key : Value) :
    Prop where
  usable : h.Usable admits key
  keyable : h.Keyable key
  equal : ∃ c ∈ classes, h.Usable admits c ∧ h.Keyable c ∧ h.valuesEqual key c = .ok true

/-- Without a collection, equal keys stay equal keys. -/
theorem Classed.carry {classes starts : List Value} {target : Target}
    (hkey : h.Classed admits classes key) (hcarries : h.Carries starts target h')
    (hc : h.Coherent admits) (hc' : h'.Coherent admits)
    (hcollections : h'.collections = h.collections) : h'.Classed admits classes key := by
  have hsurvives (w : Value) (s : Nat) (_ : w.slot? = some s) : h.Survives starts h' s :=
    Or.inl hcollections
  obtain ⟨c, hmem, husable, hckey, hequal⟩ := hkey.equal
  refine ⟨hcarries.usable hkey.usable (hsurvives key),
    hcarries.keyable hc hkey.usable (hsurvives key) hkey.keyable, c, hmem,
    hcarries.usable husable (hsurvives c), hcarries.keyable hc husable (hsurvives c) hckey, ?_⟩
  rwa [hcarries.valuesEqual_eq hc hc' hkey.usable husable hkey.keyable hckey (hsurvives key)
    (hsurvives c)]

/-- Different keys that have equal ones among some others are no more than these. -/
theorem Coherent.length_le_of_classed (hc : h.Coherent admits) {classes : List Value}
    (hkeys : ∀ k ∈ keys, h.Classed admits classes k) (hnodup : (keys.map h.fingerprint).Nodup) :
    keys.length ≤ classes.length := by
  have hsubset : keys.map h.fingerprint ⊆ classes.map h.fingerprint := by
    intro print hprint
    obtain ⟨k, hk, rfl⟩ := List.mem_map.mp hprint
    obtain ⟨husable, hkey, c, hmem, hcusable, hckey, hequal⟩ := hkeys k hk
    rw [hc.valuesEqual_keys hkey hckey husable hcusable] at hequal
    exact List.mem_map.mpr ⟨c, hmem, (of_decide_eq_true (Except.ok.inj hequal)).symm⟩
  simpa using (hnodup.subperm hsubset).length_le

/-- A key without an equal one is one more of the different keys. -/
theorem Provides.nodup_cons (hp : h.Provides v kind hint slots keys) (hc : h.Coherent admits)
    (husable : h.Usable admits key) (hkey : h.Keyable key)
    (hnew : ∀ k ∈ keys, h.valuesEqual key k = .ok false) :
    ((key :: keys).map h.fingerprint).Nodup := by
  have hequal {k : Value} (hk : k ∈ keys) := hp.valuesEqual_eq hc husable hkey hk
  obtain ⟨slot, b, t, _, hb, _, hbody, _, _, hperm⟩ := hp
  have hdistinct := (hc.keyed slot b t hb hbody).distinct
  rw [List.map_cons, List.nodup_cons]
  refine ⟨fun hmem => ?_, ?_⟩
  · obtain ⟨k, hk, hsame⟩ := List.mem_map.mp hmem
    have hdiffers := hnew k hk
    rw [hequal hk, decide_eq_true hsame.symm] at hdiffers
    cases hdiffers
  · rw [← (hperm.map h.fingerprint).nodup_iff, List.map_map]
    exact hdistinct

/-- A put for which there is room continues the run. -/
theorem Stocked.step (hst : Stocked admits v kind hint slots h keys) {op : Operation}
    (hargs : ∀ w ∈ roots ++ op.arguments, h.Usable admits w) (hputs : op.PutsInto v key kind)
    (hkey : h.Keyable key)
    (hroom : (∃ k ∈ keys, h.valuesEqual key k = .ok true) ∨ keys.length < hint) :
    ∃ h' keys', op.perform roots h = .ok none h' ∧ h'.collections = h.collections ∧
      Stocked admits v kind hint slots h' keys' ∧ ∀ k ∈ keys', k = key ∨ k ∈ keys := by
  have hs := hst.reachable.sound
  have husable := hargs _ (List.mem_append_right _ hputs.mem_arguments)
  obtain ⟨_, slot, _, t', _, _, _, _, _, hok, _⟩ :=
    hst.provides.put hs roots hputs husable hkey hroom
  by_cases hold : ∃ k ∈ keys, h.valuesEqual key k = .ok true
  · exact ⟨_, keys, hok, rfl, .again roots op hst hargs hputs hold hok, fun k hk => Or.inr hk⟩
  · have hnew (k : Value) (hk : k ∈ keys) :=
      hst.provides.differs hs.coherent husable hkey hold hk
    exact ⟨_, key :: keys, hok, rfl,
      .put roots op hst hargs hputs hnew (hroom.resolve_left hold) hok,
      fun k hk => List.mem_cons.mp hk⟩

/-- A put of a key that is equal to one of some keys. -/
structure Puts (h : Heap) (admits : Value → Prop) (v : Value) (kind : Kind) (classes : List Value)
    (put : List Value × Operation) : Prop where
  usable : ∀ w ∈ put.1 ++ put.2.arguments, h.Usable admits w
  classed : ∃ key, put.2.PutsInto v key kind ∧ h.Classed admits classes key

/-- There is room for a key that is equal to one of `hint` keys, if the keys so far are. -/
theorem Provides.room (hp : h.Provides v kind hint slots keys) (hc : h.Coherent admits)
    {classes : List Value} (hlen : classes.length ≤ hint)
    (hkeys : ∀ k ∈ keys, h.Classed admits classes k) (hkey : h.Classed admits classes key) :
    (∃ k ∈ keys, h.valuesEqual key k = .ok true) ∨ keys.length < hint := by
  by_cases hold : ∃ k ∈ keys, h.valuesEqual key k = .ok true
  · exact Or.inl hold
  · have hnodup := hp.nodup_cons hc hkey.usable hkey.keyable fun k hk =>
      hp.differs hc hkey.usable hkey.keyable hold hk
    exact Or.inr (Nat.le_trans (hc.length_le_of_classed (List.forall_mem_cons.mpr ⟨hkey, hkeys⟩)
      hnodup) hlen)

/-- Puts of keys that are equal to `hint` keys at most succeed one after another. -/
theorem Stocked.performAll_ok (hst : Stocked admits v kind hint slots h keys)
    {classes : List Value} (hlen : classes.length ≤ hint)
    (hkeys : ∀ k ∈ keys, h.Classed admits classes k) (puts : List (List Value × Operation))
    (hputs : ∀ put ∈ puts, h.Puts admits v kind classes put) :
    ∃ h' keys', performAll puts h = .ok () h' ∧ Stocked admits v kind hint slots h' keys' ∧
      h'.collections = h.collections := by
  induction puts generalizing h keys with
  | nil => exact ⟨h, keys, rfl, hst, rfl⟩
  | cons put puts ih =>
      obtain ⟨roots, op⟩ := put
      obtain ⟨hargs, key, hinto, hkey⟩ := hputs _ List.mem_cons_self
      have hs := hst.reachable.sound
      have hroom := hst.provides.room hs.coherent hlen hkeys hkey
      obtain ⟨mid, keys', hok, hcollections, hst', hkeys'⟩ :=
        hst.step hargs hinto hkey.keyable hroom
      have hcarries := ((op.perform_yields hs hargs).result hok).carries
      have hcarry {k : Value} (hk : h.Classed admits classes k) : mid.Classed admits classes k :=
        hk.carry hcarries hs.coherent hst'.reachable.sound.coherent hcollections
      obtain ⟨h', keys'', hrest, hst'', hcollections'⟩ := ih hst'
        (fun k hk => hcarry ((hkeys' k hk).elim (fun heq => heq ▸ hkey) (hkeys k)))
        fun put hput => by
          obtain ⟨hargs, key, hinto, hkey⟩ := hputs put (List.mem_cons_of_mem _ hput)
          exact ⟨fun w hw => hcarries.usable (hargs w hw) fun _ _ => Or.inl hcollections, key,
            hinto, hcarry hkey⟩
      refine ⟨h', keys'', ?_, hst'', hcollections'.trans hcollections⟩
      change EStateM.bind (op.perform roots) _ h = _
      rw [EStateM.bind, hok]
      exact hrest

/-- A size hint is honoured. As long as the different keys that are put into a dict or set are no
more than its hint, every put of a key succeeds. It writes one slot of the table, which binds the
key, changes nothing else in the heap and collects nothing, so the table has the slots that it was
made with. So puts of keys that are equal to `hint` keys at most succeed one after another, in any
order and with any repetitions. -/
theorem Stocked.hint_honoured (hst : Stocked admits v kind hint slots h keys) :
    h.capacity v = .ok slots ∧
    (∀ roots (op : Operation) key, (∀ w ∈ roots ++ op.arguments, h.Usable admits w) →
      op.PutsInto v key kind → h.Keyable key →
      (∃ k ∈ keys, h.valuesEqual key k = .ok true) ∨ keys.length < hint →
      ∃ hash slot t t', h.hashOf key = .ok hash ∧ v.slot? = some slot ∧ h.table slot = .ok t ∧
        t.Places t' ∧ ProbeTable.Binds h.fingerprint hash key op.valuePut t t' ∧
        op.perform roots h = .ok none (h.setBody slot (.hash t')) ∧
        (h.setBody slot (.hash t')).capacity v = .ok slots ∧
        (h.setBody slot (.hash t')).collections = h.collections) ∧
    ∀ classes (puts : List (List Value × Operation)), classes.length ≤ hint →
      (∀ k ∈ keys, h.Classed admits classes k) →
      (∀ put ∈ puts, h.Puts admits v kind classes put) →
      ∃ h', performAll puts h = .ok () h' ∧ h'.capacity v = .ok slots ∧
        h'.collections = h.collections := by
  have hs := hst.reachable.sound
  refine ⟨hst.provides.capacity_eq hs.coherent,
    fun roots op key hargs hputs hkey hroom => ?_, fun classes puts hlen hkeys hputs => ?_⟩
  · have husable := hargs _ (List.mem_append_right _ hputs.mem_arguments)
    obtain ⟨hash, slot, t, t', hhash, hslot, htable, hplaces, hbinds, hok, _⟩ :=
      hst.provides.put hs roots hputs husable hkey hroom
    obtain ⟨h', keys', hok', hcollections, hst', _⟩ := hst.step hargs hputs hkey hroom
    cases hok.symm.trans hok'
    exact ⟨hash, slot, t, t', hhash, hslot, htable, hplaces, hbinds, hok,
      hst'.provides.capacity_eq hst'.reachable.sound.coherent, hcollections⟩
  · obtain ⟨h', keys', hok, hst', hcollections⟩ := hst.performAll_ok hlen hkeys puts hputs
    exact ⟨h', hok, hst'.provides.capacity_eq hst'.reachable.sound.coherent, hcollections⟩

/-- Whether two values can be passed to an operation and are equal keys. -/
def equalKeys (h : Heap) (a b : Value) : Bool :=
  [a, b].all (fun v => h.passes v && (h.hashOf v).toBool) && h.valuesEqual a b = .ok true

theorem classed_of_equalKeys {classes : List Value} {c : Value} (hc : c ∈ classes)
    (hequal : h.equalKeys key c = true) : h.Classed admits classes key := by
  simp only [equalKeys, List.all_cons, List.all_nil, Bool.and_true, Bool.and_eq_true,
    decide_eq_true_eq] at hequal
  obtain ⟨⟨⟨hkey, hkeyhash⟩, hcpasses, hchash⟩, hsame⟩ := hequal
  exact ⟨usable_of_passes hkey, keyable_of_toBool hkeyhash, c, hc, usable_of_passes hcpasses,
    keyable_of_toBool hchash, hsame⟩

end Digest

/-! ## A run to try

A set is made for two keys and gets the boxed integer `7`. Another integer is boxed. Then the set
gets `3`, then `7`, which is equal to the boxed one, and `3` again. -/

theorem exists_stocked : ∃ h : Heap,
    Stocked (fun _ => True) (Value.ofSlot 1) .set 2 4 h [Value.ofSlot 0] ∧
    h.passes (Value.ofSlot 1) = true ∧
    ∀ pair ∈ [(Value.ofSlot 0, Value.ofSlot 0), (small 3, small 3), (small 7, Value.ofSlot 0)],
      h.equalKeys pair.1 pair.2 = true := by
  obtain ⟨h, hr, hboxed, hmade⟩ : ∃ h : Heap,
      h.Reachable (fun _ => True) ∧ h.passes (Value.ofSlot 0) = true ∧
      concludes ((Operation.newSet .set 2).perform [Value.ofSlot 0]) h (fun result made =>
        result = some (Value.ofSlot 1) && made.capacity (Value.ofSlot 1) = .ok 4 &&
        [Value.ofSlot 1, Value.ofSlot 0].all made.passes &&
        concludes ((Operation.setPut (Value.ofSlot 1) (Value.ofSlot 0)).perform []) made
          fun result put => result = none && put.passes (Value.ofSlot 1) &&
          concludes ((Operation.newInteger 9).perform [Value.ofSlot 1]) put fun result last =>
            result = some (Value.ofSlot 2) && last.passes (Value.ofSlot 1) &&
            [(Value.ofSlot 0, Value.ofSlot 0), (small 3, small 3), (small 7, Value.ofSlot 0)].all
              fun pair => last.equalKeys pair.1 pair.2) = true := by
    refine exists_reachable_of_script { crampedSettings with heapSize := 1024 }
      [([], .newInteger 7)] ?_
    decide +kernel
  obtain ⟨_, made, hmade, hput⟩ := exists_of_concludes hmade
  simp only [Bool.and_eq_true, decide_eq_true_eq, List.all_eq_true] at hput
  obtain ⟨⟨⟨rfl, hcapacity⟩, hmadePasses⟩, hput⟩ := hput
  obtain ⟨_, put, hput, hlast⟩ := exists_of_concludes hput
  simp only [Bool.and_eq_true, decide_eq_true_eq] at hlast
  obtain ⟨⟨rfl, hputPasses⟩, hlast⟩ := hlast
  obtain ⟨_, last, hlast, hsees⟩ := exists_of_concludes hlast
  simp only [Bool.and_eq_true, decide_eq_true_eq, List.all_eq_true] at hsees
  obtain ⟨⟨rfl, hlastPasses⟩, hequal⟩ := hsees
  have hst : Stocked (fun _ => True) (Value.ofSlot 1) .set 2 4 put [Value.ofSlot 0] := by
    refine .put [] (.setPut (Value.ofSlot 1) (Value.ofSlot 0))
      (.made [Value.ofSlot 0] (.newSet .set 2) hr (fun w hw => ?_) rfl hmade hcapacity)
      (fun w hw => usable_of_passes (hmadePasses w hw)) .set (by simp) (by decide) hput
    rw [List.mem_singleton.mp hw]
    exact usable_of_passes hboxed
  have hargs : ∀ w ∈ [Value.ofSlot 1] ++ (Operation.newInteger 9).arguments,
      put.Usable (fun _ => True) w := fun w hw => by
    rw [List.mem_singleton.mp hw]
    exact usable_of_passes hputPasses
  refine ⟨last, .other [Value.ofSlot 1] (.newInteger 9) hst hargs (by rw [Operation.after?, hlast])
    fun slot hslot => ?_, hlastPasses, hequal⟩
  have hsurvives : put.Survives ([Value.ofSlot 1] ++ (Operation.newInteger 9).arguments) last
      slot := Or.inr (.start List.mem_cons_self hslot)
  have hcarries :=
    ((Operation.perform_yields hst.reachable.sound (.newInteger 9) hargs).result hlast).carries
  obtain ⟨slot', b, t, hslot', hb, _, hbody, _⟩ := hst.provides
  cases hslot.symm.trans hslot'
  have hquiet :
      ((Operation.newInteger 9).target put (some (Value.ofSlot 2))).altered? ≠ some slot :=
    (Option.some_ne_none slot).symm
  exact ⟨hsurvives, (hcarries.table_eq hquiet (table_eq hb hbody) hsurvives).trans
    (table_eq hb hbody).symm⟩

theorem hint_honoured_two : ∃ h h' : Heap,
    Stocked (fun _ => True) (Value.ofSlot 1) .set 2 4 h [Value.ofSlot 0] ∧
      performAll ([small 3, small 7, small 3].map fun key => ([], .setPut (Value.ofSlot 1) key)) h =
        .ok () h' ∧
      h'.capacity (Value.ofSlot 1) = .ok 4 ∧ h'.collections = h.collections := by
  obtain ⟨h, hst, hpasses, hequal⟩ := exists_stocked
  obtain ⟨_, _, hall⟩ := hst.hint_honoured
  have hclassed (key c : Value) (hc : c ∈ [Value.ofSlot 0, small 3]) (hpair : (key, c) ∈
      [(Value.ofSlot 0, Value.ofSlot 0), (small 3, small 3), (small 7, Value.ofSlot 0)]) :
      h.Classed (fun _ => True) [Value.ofSlot 0, small 3] key :=
    classed_of_equalKeys hc (hequal (key, c) hpair)
  have hputs {key : Value} (hkey : h.Classed (fun _ => True) [Value.ofSlot 0, small 3] key) :
      h.Puts (fun _ => True) (Value.ofSlot 1) .set [Value.ofSlot 0, small 3]
        ([], .setPut (Value.ofSlot 1) key) := by
    refine ⟨fun w hw => ?_, key, .set, hkey⟩
    simp only [List.nil_append, Operation.arguments, List.mem_cons, List.not_mem_nil,
      or_false] at hw
    rcases hw with rfl | rfl
    · exact usable_of_passes hpasses
    · exact hkey.usable
  have hseven := hclassed (Value.ofSlot 0) (Value.ofSlot 0) (by simp) (by simp)
  have hthree := hputs (hclassed (small 3) (small 3) (by simp) (by simp))
  have hboxed := hputs (hclassed (small 7) (Value.ofSlot 0) (by simp) (by simp))
  obtain ⟨h', hok, hcapacity, hkept⟩ := hall [Value.ofSlot 0, small 3]
    ([small 3, small 7, small 3].map fun key => ([], .setPut (Value.ofSlot 1) key))
    (Nat.le_refl 2) (by simpa using hseven) (by simpa using ⟨hthree, hboxed, hthree⟩)
  exact ⟨h, h', hst, hok, hcapacity, hkept⟩

end Heap

end ObjectHeap
