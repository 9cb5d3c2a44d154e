import ObjectHeap.Proofs.Comparison
import ObjectHeap.Proofs.Histories
import ObjectHeap.Proofs.StoredKeys
import ObjectHeap.Proofs.TupleHashes

/-! # Frozen sets

The frozen set of some items is made in one go. If an item is no key, this is noticed before
anything else is done. Else there is one allocation, with room for as many members as there are
items, and if that succeeds all items go in. The members are the items up to equality, and each
class of equal items is represented by the first of them. So frozen sets of the same items are
equal, whatever the order and the repetitions, and however many slots they have.
-/

namespace ObjectHeap

/-! ## Ledgers of items -/

/-- What is left under a fingerprint, when items have been put in one after another, is the first
item that has it. -/
theorem Ledger.binding?_puts (print : Value → Nat) (items : List Value) (number : Nat) :
    binding? (items.map fun item => .put (print item) item Value.nil) number =
      (items.find? fun item => print item = number).map fun item => (item, Value.nil) := by
  induction items using List.reverseRecOn with
  | nil => rfl
  | append_singleton items item ih =>
      rw [List.map_append, List.map_singleton, binding?_put, ih, List.find?_append]
      cases hfound : items.find? fun item => print item = number with
      | some first =>
          have hprint : print first = number := by simpa using List.find?_some hfound
          simp
      | none => by_cases hsame : print item = number <;> simp [hsame]

/-- A table into which items have been put has their fingerprints. -/
theorem ProbeTable.Records.toFinset_eq {t : ProbeTable} {print print' : Value → Nat}
    {items : List Value}
    (h : t.Records print (items.map fun item => .put (print' item) item Value.nil)) :
    (t.toList.map fun entry => print entry.2.1).toFinset = (items.map print').toFinset := by
  ext number
  simp only [List.mem_toFinset, List.mem_map]
  rw [← h.mem_prints, Ledger.mem_prints, ne_eq, ← Ledger.binding?_eq_none_iff,
    Ledger.binding?_puts]
  simp

namespace Heap

section Digest

variable [Digest] {admits : Value → Prop} {h h' : Heap} {roots items : List Value} {v : Value}

/-! ## Items that are no keys -/

theorem checkKeys_cons (item : Value) (items : List Value) :
    h.checkKeys (item :: items) = h.hashOf item >>= fun _ => h.checkKeys items := by
  change (h.hashOf item >>= fun _ => pure ()) >>= (fun _ => h.checkKeys items) = _
  cases h.hashOf item <;> rfl

theorem checkKeys_eq_error {before after : List Value} {item : Value} {stop : Stop}
    (hbefore : ∀ k ∈ before, h.Keyable k) (hstop : h.hashOf item = .error stop) :
    h.checkKeys (before ++ item :: after) = .error stop := by
  induction before with
  | nil =>
      rw [List.nil_append, checkKeys_cons, hstop]
      rfl
  | cons first before ih =>
      obtain ⟨⟨hash, hhash⟩, hbefore⟩ := List.forall_mem_cons.mp hbefore
      rw [List.cons_append, checkKeys_cons, hhash]
      exact ih hbefore

theorem checkKeys_eq_ok (hitems : ∀ k ∈ items, h.Keyable k) : h.checkKeys items = .ok () := by
  induction items with
  | nil => rfl
  | cons first items ih =>
      obtain ⟨⟨hash, hhash⟩, hitems⟩ := List.forall_mem_cons.mp hitems
      rw [checkKeys_cons, hhash]
      exact ih hitems

theorem newFrozenSet_of_checkKeys {stop : Stop} (hstop : h.checkKeys items = .error stop) :
    newFrozenSet roots items h = .error stop h := by
  change (liftM (h.checkKeys items) >>= _ : HeapM Value) h = _
  rw [hstop]
  rfl

/-- A value that has no hash is refused for the kind of something in it, unless a word in it is
malformed. -/
theorem Coherent.hashOf_error (hc : h.Coherent admits) {item : Value} (hitem : h.Usable admits item)
    {stop : Stop} (hstop : h.hashOf item = .error stop) :
    (∃ kind, stop = .refused (.unhashable kind)) ∨ ∃ w, admits w ∧
      (stop = .fault (.malformedTag w.tagBits w.word) ∨
        stop = .fault (.malformedException w.word)) := by
  cases stop with
  | fault fault =>
      obtain ⟨w, hw, hfault⟩ := ((hashOf_gives hc hitem).excuse hstop).malformed
      exact Or.inr ⟨w, hw, hfault.imp (congrArg _) (congrArg _)⟩
  | refused refusal =>
      obtain ⟨path, c, hfails⟩ := (hashOf_eq_error_iff hc.shaped hc.wellFounded_inTuple).mp hstop
      rcases shallowHash_eq_error hfails.shallowHash_eq with ⟨_, hfault, _⟩ | ⟨kind, hkind, _⟩
      · cases hfault
      · exact Or.inl ⟨kind, hkind⟩

/-! ## One allocation -/

omit [Digest] in
theorem protecting_ok {α : Type} {step : HeapM α} {values : List Value} {a : α}
    (hstep : step (h.protectAll values) = .ok a h') :
    protecting values step h = .ok a (h'.releaseRegisters h.registerMark) := by
  unfold protecting
  rw [protectAll] at hstep
  rw [hstep]

omit [Digest] in
theorem protecting_error {α : Type} {step : HeapM α} {values : List Value} {stop : Stop}
    (hstep : step (h.protectAll values) = .error stop h') :
    protecting values step h = .error stop (h'.releaseRegisters h.registerMark) := by
  unfold protecting
  rw [protectAll] at hstep
  rw [hstep]

theorem newFrozenSet_of_keys (hkeyable : ∀ w ∈ items, h.Keyable w) :
    newFrozenSet roots items h =
      protecting items (Prod.fst <$> fillSet roots items items.length) h := by
  rw [newFrozenSet_eq]
  change (liftM (h.checkKeys items) >>= _ : HeapM Value) h = _
  rw [checkKeys_eq_ok hkeyable]
  rfl

/-- The frozen set of some keys is made if and only if a blank one with room for them is, and is
refused for the same reason. -/
theorem newFrozenSet_settles (hs : h.Sound admits 0) (hroots : ∀ w ∈ roots, h.Usable admits w)
    (hitems : ∀ w ∈ items, h.Usable admits w) (hkeyable : ∀ w ∈ items, h.Keyable w) :
    (∃ (v : Value) (slot : Nat) (blank filled : Heap),
      newSet roots .frozenSet items.length (h.protectAll items) = .ok v blank ∧
      newFrozenSet roots items h = .ok v (filled.releaseRegisters h.registerMark) ∧
      v.slot? = some slot ∧ filled.Filling admits slot 0 items h.fingerprint
        (items.map fun item => .put (h.fingerprint item) item Value.nil)) ∨
    ∃ refusal mid, refusal.isOutOfMemory = true ∧
      newSet roots .frozenSet items.length (h.protectAll items) = .error (.refused refusal) mid ∧
      newFrozenSet roots items h =
        .error (.refused refusal) (mid.releaseRegisters h.registerMark) := by
  have hprints : (h.protectAll items).fingerprint = h.fingerprint := fingerprint_congr rfl
  have hnew : Yields (fun _ => False) _ _ _ _ := newSet_filling (hs.protectAll hitems) hroots hitems
    (fun w hw => (hkeyable w hw).protectAll hs.coherent (hitems w hw) items)
    fun w hw _ hslot => .register (mem_protectAll.mpr (Or.inr hw)) hslot
  rw [hprints] at hnew
  rw [newFrozenSet_of_keys hkeyable]
  rcases hnew.ok_or_refused with ⟨v, blank, hok, slot, body, hslot, _, hexpect, hfilling⟩ |
    ⟨refusal, mid, hrefused, hmemory, _⟩
  · have hfill : Yields (fun _ => False) (Prod.fst <$> fillSet roots items items.length)
        (h.protectAll items) (fun w filled => w = v ∧
          filled.Filling admits slot 0 items h.fingerprint
            (items.map fun item => .put (h.fingerprint item) item Value.nil))
        fun _ _ => False := by
      rw [← Nat.zero_add items.length] at hfilling
      refine Yields.map (Yields.bind (Q := fun w mid => w = v ∧ mid = blank)
        (Yields.of_ok hok ⟨rfl, rfl⟩) fun w mid hmade => ?_)
      obtain ⟨rfl, rfl⟩ := hmade
      refine Yields.get (Yields.read_eq hexpect ?_)
      rw [List.take_length]
      exact Yields.bind (hfilling.run fun w hw => hw) fun _ filled hrun =>
        Yields.pure ⟨rfl, hrun.2⟩
    obtain ⟨_, filled, hstep, rfl, hfilled⟩ := hfill.exists_ok
    exact Or.inl ⟨_, slot, blank, filled, hok, protecting_ok hstep, hslot, hfilled⟩
  · refine Or.inr ⟨refusal, mid, hmemory, hrefused, protecting_error ?_⟩
    change EStateM.map _ (EStateM.bind (newSet roots .frozenSet items.length) _) _ = _
    rw [EStateM.map, EStateM.bind, hrefused]

/-! ## Members and their fingerprints -/

/-- Keys and sets can be read, and so can the values in them. -/
theorem Coherent.legible_sets (hc : h.Coherent admits) : h.Legible admits fun v =>
    h.Usable admits v ∧ (h.Keyable v ∨ ∃ t, h.content? v = some (.set t)) := by
  refine ⟨fun _ hv => hv.1, fun v hv => ?_, fun v content w hv hcontent hw =>
    ⟨hc.members_usable hcontent hw, Or.inl ?_⟩⟩
  · rcases hv.2 with hkeyable | ⟨t, hset⟩
    · exact hkeyable.exists_number?
    · obtain ⟨slot, block, hslot, hblock, _⟩ := content?_eq_some hset
      exact ⟨_, number?_ref hslot hblock⟩
  · rcases hv.2 with hkeyable | ⟨t, hset⟩
    · exact hc.keyable_member hkeyable hcontent hw
    · cases hset.symm.trans hcontent
      exact hc.keyable_of_mem_set hset hw

/-- Whether `v` is a set of a kind, whose members have some fingerprints. -/
def Comprises (h : Heap) (v : Value) (kind : Kind) (prints : Finset Nat) : Prop :=
  ∃ slot b t, v.slot? = some slot ∧ h.block? slot = some b ∧ b.header.kind = kind ∧
    b.body = .hash t ∧ t.keepsValues = false ∧
    (t.toList.map fun entry => h.fingerprint entry.2.1).toFinset = prints

/-- Sets are equal if their members have the same fingerprints. -/
theorem Comprises.valuesEqual_eq {a b : Value} {kind kind' : Kind} {prints prints' : Finset Nat}
    (ha : h.Comprises a kind prints) (hb : h.Comprises b kind' prints') (hc : h.Coherent admits) :
    h.valuesEqual a b = .ok (decide (prints = prints')) := by
  have hset {v : Value} {kind : Kind} {prints : Finset Nat} (hv : h.Comprises v kind prints) :
      h.Usable admits v ∧ (h.Keyable v ∨ ∃ t, h.content? v = some (.set t)) := by
    obtain ⟨slot, b, t, hslot, hb, _, hbody, hkeeps, _⟩ := hv
    exact ⟨usable_of_slot? hslot hb, Or.inr ⟨t,
      (content?_block hslot hb).trans (Block.content?_of_hash hbody hkeeps)⟩⟩
  have hform {v : Value} {kind : Kind} {prints : Finset Nat} (hv : h.Comprises v kind prints) :
      h.form h.fingerprint v = .set prints := by
    obtain ⟨n, hn⟩ := hc.legible_sets.number? v (hset hv)
    obtain ⟨slot, b, t, hslot, hb, _, hbody, hkeeps, rfl⟩ := hv
    have hcontent : h.content? v = some (.set t) :=
      (content?_block hslot hb).trans (Block.content?_of_hash hbody hkeeps)
    rw [form_content (number?_of_content? hn hcontent), hcontent]
    rfl
  rw [hc.legible_sets.valuesEqual_eq hc (hset ha) (hset hb)]
  refine congrArg _ (decide_eq_decide.mpr ?_)
  rw [hc.fingerprint_eq_iff (hset ha).1 (hset hb).1, hform ha, hform hb, Form.set.injEq]

/-- A frozen set that survives has the same members. -/
theorem Comprises.survive {kind : Kind} {prints : Finset Nat} {starts : List Value}
    {target : Target} (hv : h.Comprises v kind prints) (hc : h.Coherent admits)
    (hfrozen : kind.isFrozen = true) (hcarries : h.Carries starts target h')
    (hsurvives : ∀ s, v.slot? = some s → h.Survives starts h' s) :
    h'.Comprises v kind prints := by
  obtain ⟨slot, b, t, hslot, hb, hkind, hbody, hkeeps, rfl⟩ := hv
  have hstays := hsurvives slot hslot
  obtain ⟨b', hb', hallows⟩ := hcarries.carried slot b hb hstays
  have halike := hallows.alike (hc.fits slot b hb)
  refine ⟨slot, b', t, hslot, hb', halike.kind_eq.trans hkind,
    (halike.body_eq (hkind ▸ hfrozen)).trans hbody, hkeeps, ?_⟩
  congr 1
  refine List.map_congr_left fun entry hentry => ?_
  exact hcarries.stored_print hc (table_eq hb hbody) hstays hentry

/-- A frozen set that has been filled comprises the items. -/
theorem Filling.comprises {slot left : Nat} {print : Value → Nat}
    (hf : h.Filling admits slot left items print
      (items.map fun item => .put (print item) item Value.nil)) (hslot : v.slot? = some slot)
    (mark : Nat) :
    (h.releaseRegisters mark).Comprises v .frozenSet (items.map print).toFinset := by
  obtain ⟨b, t, hb, hkind, hbody, _, hrecords⟩ := hf.table
  have hfits := hf.sound.coherent.fits slot b hb
  rw [hbody] at hfits
  have hprints : (h.releaseRegisters mark).fingerprint = h.fingerprint := fingerprint_congr rfl
  refine ⟨slot, b, t, hslot, hb, hkind, hbody,
    Body.keepsValues_eq_false hfits (by rw [hkind]; nofun), ?_⟩
  rw [hprints, hrecords.toFinset_eq]

/-- Whether two lists have the same items up to equality. -/
def SameItems (h : Heap) (items items' : List Value) : Prop :=
  (∀ a ∈ items, ∃ b ∈ items', h.valuesEqual a b = .ok true) ∧
    ∀ b ∈ items', ∃ a ∈ items, h.valuesEqual b a = .ok true

instance (h : Heap) (items items' : List Value) : Decidable (h.SameItems items items') :=
  inferInstanceAs (Decidable (_ ∧ _))

theorem Coherent.sameItems_iff (hc : h.Coherent admits) {items' : List Value}
    (hitems : ∀ w ∈ items, h.Usable admits w ∧ h.Keyable w)
    (hitems' : ∀ w ∈ items', h.Usable admits w ∧ h.Keyable w) :
    h.SameItems items items' ↔
      (items.map h.fingerprint).toFinset = (items'.map h.fingerprint).toFinset := by
  have hsubset {xs ys : List Value} (hxs : ∀ w ∈ xs, h.Usable admits w ∧ h.Keyable w)
      (hys : ∀ w ∈ ys, h.Usable admits w ∧ h.Keyable w) :
      (∀ a ∈ xs, ∃ b ∈ ys, h.valuesEqual a b = .ok true) ↔
        (xs.map h.fingerprint).toFinset ⊆ (ys.map h.fingerprint).toFinset := by
    simp only [Finset.subset_iff, List.mem_toFinset, List.mem_map, forall_exists_index, and_imp,
      forall_apply_eq_imp_iff₂]
    refine forall₂_congr fun a ha => exists_congr fun b => and_congr_right fun hb => ?_
    rw [hc.legible_keys.valuesEqual_eq hc (hxs a ha) (hys b hb), Except.ok.injEq,
      decide_eq_true_eq, eq_comm]
  rw [SameItems, hsubset hitems hitems', hsubset hitems' hitems, Finset.Subset.antisymm_iff]

/-- Whether a value is the first of some items that is equal to it. -/
def FirstOf (h : Heap) (items : List Value) (k : Value) : Prop :=
  ∃ before after, items = before ++ k :: after ∧ ∀ w ∈ before, h.valuesEqual w k = .ok false

omit [Digest] in
theorem FirstOf.mem {k : Value} (hfirst : h.FirstOf items k) : k ∈ items := by
  obtain ⟨before, after, rfl, _⟩ := hfirst
  simp

theorem Coherent.firstOf_iff (hc : h.Coherent admits)
    (hitems : ∀ w ∈ items, h.Usable admits w ∧ h.Keyable w) {k : Value} :
    h.FirstOf items k ↔
      items.find? (fun item => h.fingerprint item = h.fingerprint k) = some k := by
  rw [List.find?_eq_some_iff_append, FirstOf]
  simp only [decide_true, true_and]
  refine exists₂_congr fun before after => and_congr_right ?_
  rintro rfl
  refine forall₂_congr fun w hw => ?_
  rw [hc.legible_keys.valuesEqual_eq hc (hitems w (by simp [hw])) (hitems k (by simp)),
    Except.ok.injEq]
  simp

/-- Every item is equal to the first one that is equal to it. -/
theorem Coherent.exists_firstOf (hc : h.Coherent admits)
    (hitems : ∀ w ∈ items, h.Usable admits w ∧ h.Keyable w) {item : Value} (hitem : item ∈ items) :
    ∃ k, h.FirstOf items k ∧ h.fingerprint k = h.fingerprint item := by
  obtain ⟨k, hfound⟩ := Option.isSome_iff_exists.mp (List.find?_isSome
    (p := fun k => decide (h.fingerprint k = h.fingerprint item)).mpr
    ⟨item, hitem, decide_eq_true rfl⟩)
  have hsame : h.fingerprint k = h.fingerprint item := by simpa using List.find?_some hfound
  exact ⟨k, (hc.firstOf_iff hitems).mpr (hsame ▸ hfound), hsame⟩

/-! ## What is made -/

/-- What a frozen set of some items is: its members are the items up to equality, each of them the
first among those equal to it. -/
structure Gathers (h : Heap) (items : List Value) (v : Value) (h' : Heap) : Prop where
  kind_eq : h'.kindOf v = .ok .frozenSet
  members : ∃ members : List Value,
    h'.hashEntries v = .ok (members.map fun k => (k, Value.nil)) ∧
    (∀ k, k ∈ members ↔ h.FirstOf items k) ∧
    members.Pairwise (fun a b => h'.valuesEqual a b = .ok false) ∧
    ∀ item ∈ items, ∃ k ∈ members, h'.valuesEqual item k = .ok true
  registers_eq : h'.registers = h.registers

/-- The members of a frozen set that has been filled. -/
theorem Filling.gathers {slot mark : Nat}
    (hf : h'.Filling admits slot 0 items h.fingerprint
      (items.map fun item => .put (h.fingerprint item) item Value.nil))
    (hslot : v.slot? = some slot) (hc : h.Coherent admits)
    (hitems : ∀ w ∈ items, h.Usable admits w ∧ h.Keyable w)
    (hc' : (h'.releaseRegisters mark).Coherent admits)
    (hitems' : ∀ w ∈ items, (h'.releaseRegisters mark).Keyable w)
    (hregisters : (h'.releaseRegisters mark).registers = h.registers) :
    h.Gathers items v (h'.releaseRegisters mark) := by
  obtain ⟨b, t, hb, hkind, hbody, _, hrecords⟩ := hf.table
  have hprints : (h'.releaseRegisters mark).fingerprint = h'.fingerprint := fingerprint_congr rfl
  -- what is stored is the first item with its fingerprint, and no value
  have hstored {hash : UInt64} {k value : Value} (hmem : (hash, k, value) ∈ t.toList) :
      h.FirstOf items k ∧ value = Value.nil := by
    have hfirst := hrecords.binding?_of_mem hmem
    rw [Ledger.binding?_puts, Option.map_eq_some_iff] at hfirst
    obtain ⟨item, hfound, hitem⟩ := hfirst
    cases hitem
    rw [(hf.items k (List.mem_of_find?_eq_some hfound)).print_eq] at hfound
    exact ⟨(hc.firstOf_iff hitems).mpr hfound, rfl⟩
  have hmembers (k : Value) : k ∈ t.toList.map (fun entry => entry.2.1) ↔ h.FirstOf items k := by
    constructor
    · intro hk
      obtain ⟨⟨hash, _, value⟩, hmem, rfl⟩ := List.mem_map.mp hk
      exact (hstored hmem).1
    · intro hfirst
      have hfound := (hc.firstOf_iff hitems).mp hfirst
      obtain ⟨_, hash, hmem⟩ := (hrecords (h.fingerprint k) k Value.nil).mp (by
        rw [Ledger.binding?_puts, hfound]
        rfl)
      exact List.mem_map.mpr ⟨_, hmem, rfl⟩
  have hequal {a b : Value} (ha : a ∈ items) (hb : b ∈ items) :
      (h'.releaseRegisters mark).valuesEqual a b =
        .ok (decide (h.fingerprint a = h.fingerprint b)) := by
    have hitem {k : Value} (hk : k ∈ items) := hf.items k hk
    rw [hc'.valuesEqual_keys (hitems' a ha) (hitems' b hb) (hitem ha).usable (hitem hb).usable,
      hprints, (hitem ha).print_eq, (hitem hb).print_eq]
  refine ⟨(kindOf_eq hslot hb).trans (by rw [hkind]),
    ⟨t.toList.map fun entry => entry.2.1, ?_, hmembers, ?_, fun item hitem => ?_⟩, hregisters⟩
  · refine (hashEntries_eq hslot hb (by rw [hkind]; rfl) hbody).trans ?_
    rw [List.map_map]
    refine congrArg _ (List.map_congr_left fun entry hentry => ?_)
    obtain ⟨hash, k, value⟩ := entry
    exact congrArg _ (hstored hentry).2
  · have hdistinct := (hf.sound.coherent.keyed slot b t hb hbody).distinct
    rw [List.Nodup, List.pairwise_map] at hdistinct
    refine List.pairwise_map.mpr (hdistinct.imp_of_mem fun {x y} hx hy hne => ?_)
    have hx := (hstored hx).1.mem
    have hy := (hstored hy).1.mem
    rw [(hf.items _ hx).print_eq, (hf.items _ hy).print_eq] at hne
    rw [hequal hx hy, decide_eq_false hne]
  · obtain ⟨k, hfirst, hsame⟩ := hc.exists_firstOf hitems hitem
    exact ⟨k, (hmembers k).mpr hfirst, by rw [hequal hitem hfirst.mem, decide_eq_true hsame.symm]⟩

/-- A frozen set that is made gathers the items, and comprises their fingerprints. -/
theorem newFrozenSet_gathers (hs : h.Sound admits 0)
    (hargs : ∀ w ∈ roots ++ items, h.Usable admits w)
    (hok : newFrozenSet roots items h = .ok v h') :
    h'.Sound admits 0 ∧ h.Carries (roots ++ items) (.filled v) h' ∧
      (∀ item ∈ items, h.Keyable item ∧ h'.Keyable item) ∧ h.Gathers items v h' ∧
      h'.Comprises v .frozenSet (items.map h.fingerprint).toFinset := by
  obtain ⟨hroots, hitems⟩ := List.forall_mem_append.mp hargs
  have hmade := (newFrozenSet_yields hs hroots hitems).result hok
  have hcarries := hmade.completed.carries
  have hkeyable : ∀ item ∈ items, h.Keyable item := by
    cases hkeys : h.checkKeys items with
    | ok => exact (checkKeys_gives hs.coherent hitems).result hkeys
    | error stop => cases (newFrozenSet_of_checkKeys hkeys).symm.trans hok
  have hkeyable' (item : Value) (hitem : item ∈ items) : h'.Keyable item :=
    hcarries.keyable hs.coherent (hitems item hitem)
      (fun _ hslot => Or.inr (.start (List.mem_append_right _ hitem) hslot)) (hkeyable item hitem)
  rcases newFrozenSet_settles hs hroots hitems hkeyable with
    ⟨w, slot, blank, filled, _, hok', hslot, hf⟩ | ⟨refusal, mid, _, _, hrefused⟩
  · cases hok'.symm.trans hok
    exact ⟨hmade.completed.sound, hcarries, fun item hitem =>
      ⟨hkeyable item hitem, hkeyable' item hitem⟩, hf.gathers hslot hs.coherent
        (fun item hitem => ⟨hitems item hitem, hkeyable item hitem⟩)
        hmade.completed.sound.coherent hkeyable' (hcarries.registers_eq rfl), hf.comprises hslot _⟩
  · cases hrefused.symm.trans hok

/-- Every set comprises the fingerprints of its entries, which are keys. -/
theorem Coherent.comprises_of_setSlot (hc : h.Coherent admits) {s : Value}
    (hs : h.Usable admits s) {slot : Nat} (hslot : h.setSlot s = .ok slot)
    {entries : List (Value × Value)} (hentries : h.hashEntries s = .ok entries) :
    (∀ entry ∈ entries, h.Usable admits entry.1 ∧ h.Keyable entry.1) ∧
      ∃ kind, h.Comprises s kind ((entries.map Prod.fst).map h.fingerprint).toFinset := by
  obtain ⟨hslot, b, hb, hkind⟩ := (expectSlot_gives hs ..).result hslot
  have hhash := Kind.isHash_of_set _ hkind
  have hfits := hc.fits slot b hb
  obtain ⟨t, hbody⟩ := Body.exists_table hfits hhash
  cases (hashEntries_eq hslot hb hhash hbody).symm.trans hentries
  rw [hbody] at hfits
  refine ⟨fun entry hentry => ?_, b.header.kind, slot, b, t, hslot, hb, rfl, hbody,
    Body.keepsValues_eq_false hfits ?_, ?_⟩
  · obtain ⟨⟨hash, key, value⟩, hmem, rfl⟩ := List.mem_map.mp hentry
    obtain ⟨hhash, husable⟩ := hc.stored_key hb hbody hmem
    exact ⟨husable, hash, hhash⟩
  · rintro hdict
    rw [hdict] at hkind
    cases hkind
  · rw [List.map_map, List.map_map]
    rfl

/-- Keys that survive keep their fingerprints. -/
theorem Carries.map_fingerprint {starts : List Value} {target : Target}
    (hcarries : h.Carries starts target h') (hc : h.Coherent admits)
    (hitems : ∀ w ∈ items, h.Usable admits w ∧
      ∀ slot, w.slot? = some slot → h.Survives starts h' slot)
    (hkeys : ∀ w ∈ items, h.Keyable w) :
    items.map h'.fingerprint = items.map h.fingerprint :=
  List.map_congr_left fun w hw =>
    hcarries.fingerprint_eq hc (hitems w hw).1 (hitems w hw).2 (hkeys w hw)

/-- The frozen set of some items is made in one go or not at all. If an item is no key, the first
such item is refused, unless a word in it is malformed, and nothing has changed. Else all depends
on the allocation of a blank set, and a refusal is that of the allocation. The members of the set
that is made are the items up to equality, each of them the first among those equal to it, and no
register is left behind. It is equal to just those sets that have the same members. So frozen
sets of two lists are equal exactly if these have the same items up to equality, in whatever
order and however often. -/
theorem Reachable.newFrozenSet_exact (hr : h.Reachable admits) (roots items : List Value)
    (hargs : ∀ w ∈ roots ++ items, h.Usable admits w) :
    (∀ before item after stop, items = before ++ item :: after →
      (∀ k ∈ before, h.Keyable k) → h.hashOf item = .error stop →
      ((∃ kind, stop = .refused (.unhashable kind)) ∨ ∃ w, admits w ∧
        (stop = .fault (.malformedTag w.tagBits w.word) ∨
          stop = .fault (.malformedException w.word))) ∧
        newFrozenSet roots items h = .error stop h) ∧
    ((∀ item ∈ items, h.Keyable item) →
      (∃ v blank h', newSet roots .frozenSet items.length (h.protectAll items) = .ok v blank ∧
        newFrozenSet roots items h = .ok v h') ∨
      ∃ refusal mid, refusal.isOutOfMemory = true ∧
        newSet roots .frozenSet items.length (h.protectAll items) =
          .error (.refused refusal) mid ∧
        newFrozenSet roots items h =
          .error (.refused refusal) (mid.releaseRegisters h.registerMark)) ∧
    ∀ v h', newFrozenSet roots items h = .ok v h' → h.Gathers items v h' ∧
      (∀ s slot entries, h'.Usable admits s → h'.setSlot s = .ok slot →
        h'.hashEntries s = .ok entries →
        (h'.valuesEqual s v = .ok true ↔ h'.SameItems (entries.map Prod.fst) items)) ∧
      ∀ roots' items' v' h'', (∀ w ∈ roots', h'.Usable admits w) →
        (∀ w ∈ items', h.Usable admits w ∧
          ∀ slot, w.slot? = some slot → h.Survives (roots ++ items) h' slot) →
        newFrozenSet roots' items' h' = .ok v' h'' →
        (∀ slot, v.slot? = some slot → h'.Survives (roots' ++ items') h'' slot) →
        (h''.valuesEqual v v' = .ok true ↔ h.SameItems items items') := by
  have hs := hr.sound
  have hc := hs.coherent
  obtain ⟨hroots, hitems⟩ := List.forall_mem_append.mp hargs
  refine ⟨fun before item after stop hsplit hbefore hstop => ?_, fun hkeyable => ?_,
    fun v h' hok => ?_⟩
  · subst hsplit
    exact ⟨hc.hashOf_error (hitems item (by simp)) hstop,
      newFrozenSet_of_checkKeys (checkKeys_eq_error hbefore hstop)⟩
  · rcases newFrozenSet_settles hs hroots hitems hkeyable with
      ⟨v, _, blank, filled, hblank, hok, _⟩ | hrefused
    · exact Or.inl ⟨v, blank, _, hblank, hok⟩
    · exact Or.inr hrefused
  · obtain ⟨hs', hcarries, hkeyable, hgathers, hcomprises⟩ := newFrozenSet_gathers hs hargs hok
    have hc' := hs'.coherent
    have hstays (w : Value) (hw : w ∈ items) : h.Usable admits w ∧
        ∀ slot, w.slot? = some slot → h.Survives (roots ++ items) h' slot :=
      ⟨hitems w hw, fun _ hslot => Or.inr (.start (List.mem_append_right _ hw) hslot)⟩
    refine ⟨hgathers, fun s slot entries husable hslot hentries => ?_,
      fun roots' items' v' h'' hroots' hitems' hok' hsurvives => ?_⟩
    · obtain ⟨hmembers, kind, hset⟩ := hc'.comprises_of_setSlot husable hslot hentries
      rw [hset.valuesEqual_eq hcomprises hc', hc'.sameItems_iff (List.forall_mem_map.mpr hmembers)
        fun w hw => ⟨hcarries.usable (hstays w hw).1 (hstays w hw).2, (hkeyable w hw).2⟩,
        hcarries.map_fingerprint hc hstays fun w hw => (hkeyable w hw).1]
      simp
    · have hargs' : ∀ w ∈ roots' ++ items', h'.Usable admits w := List.forall_mem_append.mpr
        ⟨hroots', fun w hw => hcarries.usable (hitems' w hw).1 (hitems' w hw).2⟩
      obtain ⟨hs'', hcarries', hkeyable', _, hcomprises'⟩ :=
        newFrozenSet_gathers hs' hargs' hok'
      have hkeys (w : Value) (hw : w ∈ items') : h.Keyable w := by
        obtain ⟨⟨hash, hhash⟩, _⟩ := hkeyable' w hw
        exact ⟨hash, (hcarries.hashOf_eq hc (hitems' w hw).1 (hitems' w hw).2).symm.trans hhash⟩
      rw [hcarries.map_fingerprint hc hitems' hkeys] at hcomprises'
      rw [(hcomprises.survive hc' rfl hcarries' hsurvives).valuesEqual_eq hcomprises' hs''.coherent,
        hc.sameItems_iff (fun w hw => ⟨hitems w hw, (hkeyable w hw).1⟩)
          fun w hw => ⟨(hitems' w hw).1, hkeys w hw⟩]
      simp

end Digest

/-! ## Sets to try

There are the float `1.0` and a list. No frozen set has the list, and those of `2, 1.0, 1, 2` and
of `1.0, 2` are equal. -/

/-- The items of a frozen set with repetitions. -/
def repeatedItems : List Value := [small 2, Value.ofSlot 0, small 1, small 2]

/-- The same items without repetitions. -/
def singleItems : List Value := [Value.ofSlot 0, small 2]

theorem exists_frozenSets : ∃ h : Heap, h.Reachable (fun _ => False) ∧
    (∀ w ∈ Value.ofSlot 1 :: repeatedItems, h.passes w = true) ∧
    ((h.hashOf (small 1)).toBool = true ∧
      h.hashOf (Value.ofSlot 1) = .error (.refused (.unhashable .list))) ∧
    h.SameItems repeatedItems singleItems ∧
    concludes (newFrozenSet [Value.ofSlot 1] repeatedItems) h (fun v h' =>
      v = Value.ofSlot 2 && h'.passes v &&
        concludes (newFrozenSet [Value.ofSlot 2] singleItems) h' fun _ _ => true) = true := by
  refine exists_reachable_of_script { crampedSettings with heapSize := 1024 }
    [([], .newFloat ⟨0x3ff0000000000000⟩), ([Value.ofSlot 0], .newList #[])] ?_
  decide +kernel

theorem newFrozenSet_exact_repeated : ∃ (h h' h'' : Heap) (v v' : Value),
    newFrozenSet [] [small 1, Value.ofSlot 1] h = .error (.refused (.unhashable .list)) h ∧
      newFrozenSet [Value.ofSlot 1] repeatedItems h = .ok v h' ∧
      newFrozenSet [v] singleItems h' = .ok v' h'' ∧ h''.valuesEqual v v' = .ok true := by
  obtain ⟨h, hr, hpasses, ⟨hone, hlist⟩, hsame, hmade⟩ := exists_frozenSets
  have hlive (w : Value) (hw : w ∈ Value.ofSlot 1 :: repeatedItems) : h.Live w :=
    usable_of_passes (hpasses w hw)
  obtain ⟨v, h', hmade, hrest⟩ := exists_of_concludes hmade
  simp only [Bool.and_eq_true, decide_eq_true_eq] at hrest
  obtain ⟨⟨rfl, hpasses'⟩, hagain⟩ := hrest
  obtain ⟨v', h'', hagain, _⟩ := exists_of_concludes hagain
  have hmixed : ∀ w ∈ [small 1, Value.ofSlot 1], w ∈ Value.ofSlot 1 :: repeatedItems := by
    simp [repeatedItems]
  have hsingle : ∀ w ∈ singleItems, w ∈ repeatedItems := by
    simp [singleItems, repeatedItems]
  obtain ⟨hunhashable, _⟩ := hr.newFrozenSet_exact [] [small 1, Value.ofSlot 1]
    fun w hw => hlive w (hmixed w hw)
  obtain ⟨_, hrefused⟩ := hunhashable [small 1] (Value.ofSlot 1) [] _ rfl
    (by simpa using keyable_of_toBool hone) hlist
  obtain ⟨_, _, hexact⟩ := hr.newFrozenSet_exact [Value.ofSlot 1] repeatedItems hlive
  obtain ⟨_, _, hequal⟩ := hexact _ h' hmade
  refine ⟨h, h', h'', _, v', hrefused, hmade, hagain, (hequal [Value.ofSlot 2] singleItems v' h''
    (by simpa using usable_of_passes hpasses') (fun w hw => ?_) hagain fun slot hslot => ?_).mpr
    hsame⟩
  · exact ⟨hlive w (List.mem_cons_of_mem _ (hsingle w hw)), fun slot hslot =>
      Or.inr (.start (List.mem_append_right _ (hsingle w hw)) hslot)⟩
  · exact Or.inr (.start List.mem_cons_self hslot)

end Heap

end ObjectHeap
