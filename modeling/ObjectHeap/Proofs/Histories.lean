import ObjectHeap.Proofs.Bookkeeping
import ObjectHeap.Proofs.Runs

/-! # Dicts and sets in runs

A run keeps a ledger for every slot, in which the changes of the table in it are noted. Reads of
a dict or set, and removals from it, are settled by its ledger: a dict has the value that was
stored last under a key equal to the one asked for, and a set the member that was stored first.
So dicts and sets are finite maps up to equality, whatever else goes on in the heap.
-/

namespace ObjectHeap.Heap

/-- The heaps of runs, with the ledgers of all slots. A refused operation changes no table. -/
inductive Logged [Digest] (admits : Value → Prop) : Heap → (Nat → Ledger) → Prop where
  | new {settings : Settings} {h : Heap} : Heap.new settings = .ok h → Logged admits h fun _ => []
  | done {h h' : Heap} {ledgers : Nat → Ledger} {result : Option Value} (roots : List Value)
      (op : Operation) : Logged admits h ledgers →
      (∀ v ∈ roots ++ op.arguments, h.Usable admits v) → op.perform roots h = .ok result h' →
      Logged admits h' fun slot => op.book h roots result h' slot (ledgers slot)
  | refused {h h' : Heap} {ledgers : Nat → Ledger} {refusal : Refusal} (roots : List Value)
      (op : Operation) : Logged admits h ledgers →
      (∀ v ∈ roots ++ op.arguments, h.Usable admits v) →
      op.perform roots h = .error (.refused refusal) h' →
      Logged admits h' fun slot => h.inherited (roots ++ op.arguments) h' slot (ledgers slot)

section Digest

variable [Digest] {admits : Value → Prop} {h h' : Heap} {ledgers : Nat → Ledger}

/-- The heaps of a logged run can be reached. -/
theorem Logged.reachable (hl : h.Logged admits ledgers) : h.Reachable admits := by
  induction hl with
  | new hnew => exact .new hnew
  | done roots op _ hargs hperform ih =>
      exact .step roots op ih hargs (by rw [Operation.after?, hperform])
  | refused roots op _ hargs hperform ih =>
      exact .step roots op ih hargs (by rw [Operation.after?, hperform])

/-- Ledgers can be kept along any run. -/
theorem Reachable.exists_logged (hr : h.Reachable admits) : ∃ ledgers, h.Logged admits ledgers := by
  induction hr with
  | new hnew => exact ⟨_, .new hnew⟩
  | step roots op _ hargs hafter ih =>
      obtain ⟨ledgers, hl⟩ := ih
      unfold Operation.after? at hafter
      split at hafter
      next hperform =>
        cases hafter
        exact ⟨_, hl.done roots op hargs hperform⟩
      next hperform =>
        cases hafter
        exact ⟨_, hl.refused roots op hargs hperform⟩
      next => cases hafter

/-- The tables are what their ledgers say. -/
theorem Logged.reflects (hl : h.Logged admits ledgers) (slot : Nat) :
    h.Reflects slot (ledgers slot) := by
  induction hl generalizing slot with
  | new hnew =>
      obtain ⟨_, rfl⟩ := flaw?_of_new hnew
      exact rfl
  | done roots op hl hargs hperform ih =>
      exact (op.perform_books hl.reachable.sound hargs).result hperform slot _ (ih slot)
  | refused roots op hl hargs hperform ih =>
      exact (op.perform_books hl.reachable.sound hargs).refusal hperform slot _ (ih slot)

/-! ## Equal keys

The ledgers know keys by their fingerprints only. -/

/-- A key that survives an operation keeps its fingerprint. -/
theorem Reachable.fingerprint_after (hr : h.Reachable admits) {roots : List Value} {op : Operation}
    (hargs : ∀ v ∈ roots ++ op.arguments, h.Usable admits v) (hafter : op.after? roots h = some h')
    {key : Value} (husable : h.Usable admits key) (hkey : h.Keyable key)
    (hsurvives : ∀ slot, key.slot? = some slot → h.Survives (roots ++ op.arguments) h' slot) :
    h'.fingerprint key = h.fingerprint key := by
  obtain ⟨target, hcarries⟩ := carries_after hr.sound hargs hafter
  exact hcarries.fingerprint_eq hr.sound.coherent husable hsurvives hkey

/-! ## Tables and their ledgers -/

variable {slot : Nat} {ledger : Ledger} {t : ProbeTable} {v key : Value}

/-- A lookup finds the entry that the ledger leaves. -/
theorem Reflects.hashLookup_eq (hr : h.Reflects slot ledger) (hc : h.Coherent admits)
    (htable : h.table slot = .ok t) (husable : h.Usable admits key) (hkey : h.Keyable key) :
    h.hashLookup slot key = .ok (ledger.binding? (h.fingerprint key)) := by
  rw [reflects_of_table htable] at hr
  obtain ⟨b, hb, hbody⟩ := exists_block_of_table htable
  obtain ⟨hash, hhash⟩ := hkey
  obtain ⟨answer, hfind, hanswers⟩ := find_spec hc hb hbody hhash husable
  have hmissing (hlacks : t.Lacks hash (h.isKey key)) :
      ledger.binding? (h.fingerprint key) = none :=
    hr.binding?_eq_none (hc.ne_of_lacks hb hbody hhash husable hlacks)
  rw [hashLookup, hhash]
  refine (liftM_bind_eq hfind _).trans ?_
  cases answer with
  | full =>
      rw [hmissing hanswers.2]
      rfl
  | vacant index =>
      rw [hmissing hanswers.2.2]
      rfl
  | found index =>
      obtain ⟨stored, value, hentry, hsame⟩ := hanswers
      have hstanding := hr.binding?_of_mem (ProbeTable.mem_toList.mpr ⟨index, hentry⟩)
      rw [of_decide_eq_true hsame] at hstanding
      have hfound : t.entry index = .ok (.occupied hash stored value) := by
        rw [ProbeTable.entry, hentry]
      rw [hstanding]
      exact (liftM_bind_eq htable _).trans (liftM_bind_eq hfound _)

/-- A removal fails if the ledger leaves no entry. -/
theorem Reflects.hashRemove_missing (hr : h.Reflects slot ledger) (hc : h.Coherent admits)
    (htable : h.table slot = .ok t) (husable : h.Usable admits key) (hkey : h.Keyable key)
    (hnone : ledger.binding? (h.fingerprint key) = none) :
    hashRemove slot key h = .error (.refused .keyNotFound) h := by
  rw [reflects_of_table htable] at hr
  obtain ⟨b, hb, hbody⟩ := exists_block_of_table htable
  obtain ⟨hash, hhash⟩ := hkey
  have hyields : Yields (fun _ => False) (hashRemove slot key) h (fun _ _ => False)
      fun reason h' => reason = .keyNotFound ∧ h' = h := by
    refine hashRemove_yields hc hb hbody hhash husable (fun stored value t' hsame hperm _ _ => ?_)
      fun _ => ⟨rfl, rfl⟩
    have hstanding := hr.binding?_of_mem (hperm.mem_iff.mpr (List.mem_cons_self ..))
    rw [hsame, hnone] at hstanding
    cases hstanding
  obtain ⟨_, _, hremove, rfl, rfl⟩ := hyields.exists_refusal
  exact hremove

/-- A removal gives the value of the entry that the ledger leaves. -/
theorem Reflects.hashRemove_found (hr : h.Reflects slot ledger) (hc : h.Coherent admits)
    (htable : h.table slot = .ok t) (husable : h.Usable admits key) (hkey : h.Keyable key)
    {stored value : Value} (hsome : ledger.binding? (h.fingerprint key) = some (stored, value)) :
    ∃ h', hashRemove slot key h = .ok value h' := by
  rw [reflects_of_table htable] at hr
  obtain ⟨b, hb, hbody⟩ := exists_block_of_table htable
  obtain ⟨hash, hhash⟩ := hkey
  have hyields : Yields (fun _ => False) (hashRemove slot key) h (fun removed _ => removed = value)
      fun _ _ => False := by
    refine hashRemove_yields hc hb hbody hhash husable (fun k removed t' hsame hperm _ _ => ?_)
      fun hlacks => ?_
    · have hstanding := hr.binding?_of_mem (hperm.mem_iff.mpr (List.mem_cons_self ..))
      rw [hsame, hsome] at hstanding
      cases hstanding
      rfl
    · rw [hr.binding?_eq_none hlacks] at hsome
      cases hsome
  obtain ⟨_, h', hremove, rfl⟩ := hyields.exists_ok
  exact ⟨h', hremove⟩

/-- A removal fails exactly if no entry stands. -/
theorem Reflects.hashRemove_eq_error_iff (hr : h.Reflects slot ledger) (hc : h.Coherent admits)
    (htable : h.table slot = .ok t) (husable : h.Usable admits key) (hkey : h.Keyable key) :
    hashRemove slot key h = .error (.refused .keyNotFound) h ↔
      ledger.standing (h.fingerprint key) = [] := by
  rw [← Ledger.binding?_eq_none_iff]
  refine ⟨fun herror => ?_, hr.hashRemove_missing hc htable husable hkey⟩
  by_contra hsome
  obtain ⟨⟨stored, value⟩, hentry⟩ := Option.ne_none_iff_exists'.mp hsome
  obtain ⟨h', hremove⟩ := hr.hashRemove_found hc htable husable hkey hentry
  rw [hremove] at herror
  cases herror

/-! ## Dicts and sets and their ledgers -/

/-- How a dict answers for a key, if some entries have been stored under equal keys since these
were last removed. -/
structure DictAnswers (h : Heap) (dict key : Value) (entries : List (Value × Value)) : Prop where
  get_eq : h.dictGet dict key = .ok (entries.getLast?.map Prod.snd)
  del_missing : dictDel dict key h = .error (.refused .keyNotFound) h ↔ entries = []
  del_found : ∀ entry ∈ entries.getLast?, ∃ h', dictDel dict key h = .ok entry.2 h'

/-- How the set or frozen set in a slot answers for a key. Only a set may change. -/
structure SetAnswers (h : Heap) (s : Value) (slot : Nat) (key : Value)
    (entries : List (Value × Value)) : Prop where
  get_eq : h.setGet s key = .ok (entries.head?.map Prod.fst)
  del_missing : h.mutableSetSlot s = .ok slot →
    (setDel s key h = .error (.refused .keyNotFound) h ↔ entries = [])
  del_found : h.mutableSetSlot s = .ok slot → entries ≠ [] → ∃ h', setDel s key h = .ok () h'

/-- How a dict, set or frozen set lists its entries: one for each class of equal keys. -/
structure Lists (h : Heap) (v : Value) (ledger : Ledger) : Prop where
  len_eq : h.len v = .ok ledger.prints.card
  entries_eq : ∃ entries, h.hashEntries v = .ok entries ∧
    (entries.map fun entry => h.fingerprint entry.1).Nodup ∧
    (∀ print, print ∈ ledger.prints ↔ ∃ entry ∈ entries, h.fingerprint entry.1 = print) ∧
    ∀ entry ∈ entries, ledger.binding? (h.fingerprint entry.1) = some entry

theorem dictGet_eq (hslot : h.dictSlot v = .ok slot) (key : Value) :
    h.dictGet v key = (h.hashLookup slot key).map (Option.map Prod.snd) := by
  rw [dictGet, hslot]
  change (h.hashLookup slot key >>= _) = _
  cases h.hashLookup slot key <;> rfl

theorem dictDel_eq (hslot : h.dictSlot v = .ok slot) (key : Value) :
    dictDel v key h = hashRemove slot key h := by
  change (liftM (h.dictSlot v) >>= fun slot => hashRemove slot key : HeapM Value) h = _
  rw [hslot]
  rfl

theorem setGet_eq (hslot : h.setSlot v = .ok slot) (key : Value) :
    h.setGet v key = (h.hashLookup slot key).map (Option.map Prod.fst) := by
  rw [setGet, hslot]
  change (h.hashLookup slot key >>= _) = _
  cases h.hashLookup slot key <;> rfl

theorem setDel_eq (hslot : h.mutableSetSlot v = .ok slot) (key : Value) :
    setDel v key h = (hashRemove slot key h).map fun _ => () := by
  change (liftM (h.mutableSetSlot v) >>= fun slot => hashRemove slot key >>= _ : HeapM Unit) h = _
  rw [hslot]
  change EStateM.bind (hashRemove slot key) _ h = _
  unfold EStateM.bind
  cases hashRemove slot key h <;> rfl

theorem Coherent.table_of_expectSlot (hc : h.Coherent admits) (hv : h.Usable admits v)
    {expected : String} {accept : Kind → Bool} (hslot : h.expectSlot v expected accept = .ok slot)
    (hhash : ∀ kind, accept kind = true → kind.isHash = true) :
    v.slot? = some slot ∧ ∃ b t, h.block? slot = some b ∧ b.header.kind.isHash = true ∧
      b.body = .hash t := by
  obtain ⟨hfound, b, hb, haccept⟩ := (expectSlot_gives hv expected accept).result hslot
  obtain ⟨t, hbody⟩ := Body.exists_table (hc.fits slot b hb) (hhash _ haccept)
  exact ⟨hfound, b, t, hb, hhash _ haccept, hbody⟩

/-- A dictionary answers for a key what stands for it in the ledger. -/
theorem Reflects.dictAnswers (hr : h.Reflects slot ledger) (hc : h.Coherent admits)
    (hv : h.Usable admits v) (hslot : h.dictSlot v = .ok slot) (husable : h.Usable admits key)
    (hkey : h.Keyable key) : h.DictAnswers v key (ledger.standing (h.fingerprint key)) := by
  obtain ⟨_, b, t, hb, _, hbody⟩ := hc.table_of_expectSlot hv hslot Kind.isHash_of_dict
  have htable := table_eq hb hbody
  refine ⟨?_, ?_, fun last hlast => ?_⟩
  · rw [dictGet_eq hslot, hr.hashLookup_eq hc htable husable hkey, ← Ledger.map_snd_binding?]
    rfl
  · rw [dictDel_eq hslot]
    exact hr.hashRemove_eq_error_iff hc htable husable hkey
  · have hvalue : (ledger.binding? (h.fingerprint key)).map Prod.snd = some last.2 := by
      rw [Ledger.map_snd_binding?, hlast, Option.map_some]
    obtain ⟨⟨stored, value⟩, hentry, rfl⟩ := Option.map_eq_some_iff.mp hvalue
    rw [dictDel_eq hslot]
    exact hr.hashRemove_found hc htable husable hkey hentry

/-- A set answers for a key what stands for it in the ledger. -/
theorem Reflects.setAnswers (hr : h.Reflects slot ledger) (hc : h.Coherent admits)
    (hv : h.Usable admits v) (hslot : h.setSlot v = .ok slot) (husable : h.Usable admits key)
    (hkey : h.Keyable key) : h.SetAnswers v slot key (ledger.standing (h.fingerprint key)) := by
  obtain ⟨_, b, t, hb, _, hbody⟩ := hc.table_of_expectSlot hv hslot Kind.isHash_of_set
  have htable := table_eq hb hbody
  refine ⟨?_, fun hmutable => ?_, fun hmutable hstanding => ?_⟩
  · rw [setGet_eq hslot, hr.hashLookup_eq hc htable husable hkey, ← Ledger.map_fst_binding?]
    rfl
  · rw [setDel_eq hmutable, ← hr.hashRemove_eq_error_iff hc htable husable hkey]
    cases hashRemove slot key h with
    | ok value h' => exact iff_of_false nofun nofun
    | error stop h' => simp only [EStateM.Result.map, EStateM.Result.error.injEq]
  · rw [ne_eq, ← Ledger.binding?_eq_none_iff] at hstanding
    obtain ⟨⟨stored, value⟩, hentry⟩ := Option.ne_none_iff_exists'.mp hstanding
    obtain ⟨h', hremove⟩ := hr.hashRemove_found hc htable husable hkey hentry
    rw [setDel_eq hmutable, hremove]
    exact ⟨h', rfl⟩

/-- A walk over a table lists what the ledger binds. -/
theorem Reflects.lists (hr : h.Reflects slot ledger) (hc : h.Coherent admits) {b : Block}
    (hslot : v.slot? = some slot) (hb : h.block? slot = some b)
    (hkind : b.header.kind.isHash = true) (hbody : b.body = .hash t) : h.Lists v ledger := by
  have htable := table_eq hb hbody
  have hdistinct := hc.distinct_table htable
  rw [reflects_of_table htable] at hr
  refine ⟨?_, t.toList.map Prod.snd, ?_, ?_, fun print => ?_, ?_⟩
  · rw [← hr.size_eq (hc.table hb hbody).valid.1 hdistinct, len]
    refine (liftM_bind_eq (kindOf_eq hslot hb) _).trans ?_
    rw [hslot]
    refine (liftM_bind_eq (body_eq hb) _).trans ?_
    rw [hbody]
    rfl
  · exact hashEntries_eq hslot hb hkind hbody
  · rw [List.map_map]
    exact hdistinct
  · rw [hr.mem_prints]
    simp only [List.mem_map, exists_exists_and_eq_and]
  · intro entry hentry
    obtain ⟨⟨hash, key, value⟩, hmem, rfl⟩ := List.mem_map.mp hentry
    exact hr.binding?_of_mem hmem

/-- A key without a hash is refused for that. -/
theorem refused_of_hashOf_error {stop : Stop} (hstop : h.hashOf key = .error stop) :
    (h.dictSlot v = .ok slot → h.dictGet v key = .error stop ∧ dictDel v key h = .error stop h) ∧
      (h.setSlot v = .ok slot → h.setGet v key = .error stop) ∧
      (h.mutableSetSlot v = .ok slot → setDel v key h = .error stop h) := by
  have hlookup : h.hashLookup slot key = .error stop := by
    rw [hashLookup, hstop]
    rfl
  have hremove : hashRemove slot key h = .error stop h := by
    change (liftM (h.hashOf key) >>= _ : HeapM Value) h = _
    rw [hstop]
    rfl
  refine ⟨fun hslot => ⟨?_, ?_⟩, fun hslot => ?_, fun hslot => ?_⟩
  · rw [dictGet_eq hslot, hlookup]
    rfl
  · rw [dictDel_eq hslot, hremove]
  · rw [setGet_eq hslot, hlookup]
    rfl
  · rw [setDel_eq hslot, hremove]
    rfl

/-! ## Finite maps -/

/-- Dicts and sets are finite maps up to equality. Keys are equal if they have the same
fingerprint, and they keep it as long as they survive. What a dict or set has under a key is
settled by the entries stored under equal keys since such a key was last removed: a dict gives the
last value and a set the first member, and a removal fails exactly if there is none. Each class of
equal keys is counted and listed once. A key without a hash is refused for that. -/
theorem Logged.tables_are_maps (hl : h.Logged admits ledgers) :
    (∀ a b, h.Usable admits a → h.Usable admits b → h.Keyable a → h.Keyable b →
      h.valuesEqual a b = .ok (decide (h.fingerprint a = h.fingerprint b))) ∧
    (∀ roots (op : Operation) h' key, (∀ v ∈ roots ++ op.arguments, h.Usable admits v) →
      op.after? roots h = some h' → h.Usable admits key → h.Keyable key →
      (∀ slot, key.slot? = some slot → h.Survives (roots ++ op.arguments) h' slot) →
      h'.fingerprint key = h.fingerprint key) ∧
    (∀ v slot key, h.Usable admits v → h.dictSlot v = .ok slot → h.Usable admits key →
      h.Keyable key → h.DictAnswers v key ((ledgers slot).standing (h.fingerprint key))) ∧
    (∀ v slot key, h.Usable admits v → h.setSlot v = .ok slot → h.Usable admits key →
      h.Keyable key → h.SetAnswers v slot key ((ledgers slot).standing (h.fingerprint key))) ∧
    (∀ v slot, h.Usable admits v → h.dictSlot v = .ok slot ∨ h.setSlot v = .ok slot →
      h.Lists v (ledgers slot)) ∧
    ∀ v slot key stop, h.hashOf key = .error stop →
      (h.dictSlot v = .ok slot → h.dictGet v key = .error stop ∧ dictDel v key h = .error stop h) ∧
      (h.setSlot v = .ok slot → h.setGet v key = .error stop) ∧
      (h.mutableSetSlot v = .ok slot → setDel v key h = .error stop h) := by
  have hr := hl.reachable
  have hc := hr.sound.coherent
  refine ⟨fun a b ha hb hakey hbkey => hc.valuesEqual_keys hakey hbkey ha hb,
    fun roots op h' key hargs hafter husable hkey hsurvives =>
      hr.fingerprint_after hargs hafter husable hkey hsurvives,
    fun v slot key hv hslot husable hkey =>
      (hl.reflects slot).dictAnswers hc hv hslot husable hkey,
    fun v slot key hv hslot husable hkey =>
      (hl.reflects slot).setAnswers hc hv hslot husable hkey,
    fun v slot hv hslot => ?_, fun v slot key stop hstop => refused_of_hashOf_error hstop⟩
  rcases hslot with hslot | hslot
  · obtain ⟨hfound, b, t, hb, hkind, hbody⟩ := hc.table_of_expectSlot hv hslot Kind.isHash_of_dict
    exact (hl.reflects slot).lists hc hfound hb hkind hbody
  · obtain ⟨hfound, b, t, hb, hkind, hbody⟩ := hc.table_of_expectSlot hv hslot Kind.isHash_of_set
    exact (hl.reflects slot).lists hc hfound hb hkind hbody

end Digest

/-! ## A run to try

A dict gets a value under `1` and one under `2`, then another one under the float `1.0`, which is
equal to `1`, and `2` is taken out again. A set gets `1.0` and then `1`. -/

/-- A number that is stored inline. -/
def small (n : UInt32) : Value := Value.ofInline .smallInt n

/-- The run of the sample. The float is in slot 0, the dict in slot 1 and the set in slot 2. -/
def mapScript : List (List Value × Operation) :=
  [([], .newFloat ⟨0x3ff0000000000000⟩),
   ([Value.ofSlot 0], .newDict 0),
   ([Value.ofSlot 0, Value.ofSlot 1], .newSet .set 0),
   ([], .dictPut (Value.ofSlot 1) (small 1) (small 10)),
   ([], .dictPut (Value.ofSlot 1) (small 2) (small 20)),
   ([], .setPut (Value.ofSlot 2) (Value.ofSlot 0)),
   ([], .dictPut (Value.ofSlot 1) (Value.ofSlot 0) (small 30)),
   ([], .dictDel (Value.ofSlot 1) (small 2)),
   ([], .setPut (Value.ofSlot 2) (small 1))]

theorem exists_mapScript : ∃ h : Heap, h.Reachable (fun _ => False) ∧
    (h.passes (Value.ofSlot 1) = true ∧ h.passes (Value.ofSlot 2) = true ∧
      h.passes (small 1) = true ∧ h.passes (small 2) = true) ∧
    (h.dictSlot (Value.ofSlot 1) = .ok 1 ∧ h.setSlot (Value.ofSlot 2) = .ok 2) ∧
    ((h.hashOf (small 1)).toBool = true ∧ (h.hashOf (small 2)).toBool = true) ∧
    h.dictGet (Value.ofSlot 1) (small 1) = .ok (some (small 30)) ∧
    h.dictGet (Value.ofSlot 1) (small 2) = .ok none ∧
    h.setGet (Value.ofSlot 2) (small 1) = .ok (some (Value.ofSlot 0)) ∧
    h.len (Value.ofSlot 1) = .ok 1 := by
  refine exists_reachable_of_script { crampedSettings with heapSize := 1024 } mapScript ?_
  decide +kernel

theorem tables_are_maps_mapScript : ∃ (h : Heap) (ledgers : Nat → Ledger),
    h.Logged (fun _ => False) ledgers ∧
    ((ledgers 1).standing (h.fingerprint (small 1))).getLast?.map Prod.snd = some (small 30) ∧
    (ledgers 1).standing (h.fingerprint (small 2)) = [] ∧ (ledgers 1).prints.card = 1 ∧
    ((ledgers 2).standing (h.fingerprint (small 1))).head?.map Prod.fst =
      some (Value.ofSlot 0) := by
  obtain ⟨h, hr, ⟨hdict, hset, hone, htwo⟩, ⟨hdictSlot, hsetSlot⟩, ⟨honeKey, htwoKey⟩, hanswers⟩ :=
    exists_mapScript
  obtain ⟨honeGet, htwoGet, hmember, hlen⟩ := hanswers
  obtain ⟨ledgers, hl⟩ := hr.exists_logged
  obtain ⟨_, _, hdicts, hsets, hlists, _⟩ := hl.tables_are_maps
  have hdict : h.Usable (fun _ => False) (Value.ofSlot 1) := usable_of_passes hdict
  have hfirst := hdicts _ _ _ hdict hdictSlot (usable_of_passes hone) (keyable_of_toBool honeKey)
  have hsecond := hdicts _ _ _ hdict hdictSlot (usable_of_passes htwo) (keyable_of_toBool htwoKey)
  have hmembers :=
    hsets _ _ _ (usable_of_passes hset) hsetSlot (usable_of_passes hone) (keyable_of_toBool honeKey)
  refine ⟨h, ledgers, hl, ?_, ?_, ?_, ?_⟩
  · exact Except.ok.inj (hfirst.get_eq.symm.trans honeGet)
  · have hnone := Except.ok.inj (hsecond.get_eq.symm.trans htwoGet)
    simpa using hnone
  · exact Except.ok.inj ((hlists _ _ hdict (Or.inl hdictSlot)).len_eq.symm.trans hlen)
  · exact Except.ok.inj (hmembers.get_eq.symm.trans hmember)

end ObjectHeap.Heap
