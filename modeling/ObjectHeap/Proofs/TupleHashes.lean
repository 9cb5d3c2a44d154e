import ObjectHeap.Proofs.Walks

/-! # Hashes of tuples

In any heap in which no tuple is an element of itself, not even through others, the hash of a key
follows a recursion: a tuple is hashed from its length and the hashes of its elements, from left to
right, and everything else at once. The loop over a stack of open tuples comes to the same result.
A hash fails where the first component fails that cannot be hashed, in depth-first order. A
*component* is named by its path from the key, a list of indices, and the order of paths is
depth-first order.
-/

namespace ObjectHeap

theorem BoundedSeq.length_toList {α : Type} {s : BoundedSeq α} (hle : s.len ≤ s.capacity) :
    s.toList.length = s.len := by
  rw [toList_eq_take, List.length_take, Array.length_toList]
  exact Nat.min_eq_left hle

/-- A fold stops with the first item that cannot be folded in. -/
theorem foldlM_eq_error_iff {α β ε : Type} {f : β → Except ε α} {g : α → α → α} {items : List β}
    {stop : ε} (start : α) :
    items.foldlM (fun acc item => do return g acc (← f item)) start = .error stop ↔
      ∃ (index : Nat) (item : β), items[index]? = some item ∧ f item = .error stop ∧
        ∀ earlier < index, ∀ item', items[earlier]? = some item' → ∃ a, f item' = .ok a := by
  induction items generalizing start with
  | nil => simp [pure, Except.pure]
  | cons first rest ih =>
      rw [List.foldlM_cons]
      cases hfirst : f first with
      | error stop' =>
          refine ⟨fun h => ⟨0, first, rfl, hfirst.trans h, fun _ hlt =>
            absurd hlt (Nat.not_lt_zero _)⟩, fun ⟨index, item, hitem, hstop, hearlier⟩ => ?_⟩
          cases index with
          | zero =>
              cases hitem
              exact hfirst.symm.trans hstop
          | succ index =>
              obtain ⟨a, ha⟩ := hearlier 0 (Nat.succ_pos _) first rfl
              cases hfirst.symm.trans ha
      | ok a =>
          refine (ih (g start a)).trans ⟨?_, ?_⟩
          · rintro ⟨index, item, hitem, hstop, hearlier⟩
            refine ⟨index + 1, item, hitem, hstop, fun earlier hlt item' hitem' => ?_⟩
            cases earlier with
            | zero =>
                cases hitem'
                exact ⟨a, hfirst⟩
            | succ earlier => exact hearlier earlier (Nat.lt_of_succ_lt_succ hlt) item' hitem'
          · rintro ⟨index, item, hitem, hstop, hearlier⟩
            cases index with
            | zero =>
                cases hitem
                cases hfirst.symm.trans hstop
            | succ index =>
                exact ⟨index, item, hitem, hstop, fun earlier hlt item' hitem' =>
                  hearlier (earlier + 1) (Nat.succ_lt_succ hlt) item' hitem'⟩

namespace Heap

/-- Whether payloads fit the kinds of their blocks, and sequences of values have no more elements
than cells. -/
structure Shaped (h : Heap) : Prop where
  fits : ∀ slot block, h.block? slot = some block → block.body.fits block.header.kind = true
  len_le : ∀ slot block seq, h.block? slot = some block → block.body = .objects seq →
    seq.len ≤ seq.capacity

/-- Whether a value is a tuple that another one is an element of. -/
def InTuple (h : Heap) (outer inner : Value) : Prop :=
  ∃ items, h.content? outer = some (.tuple items) ∧ inner ∈ items

/-- The component of a value at a path, which has an index for each tuple on the way. -/
def component? (h : Heap) : Value → List Nat → Option Value
  | v, [] => some v
  | v, index :: path =>
    match h.content? v with
    | some (.tuple items) => items[index]?.bind fun item => h.component? item path
    | _ => none

/-- Whether a value refers to a block of a kind whose objects are no keys. -/
def Unhashable (h : Heap) (v : Value) (kind : Kind) : Prop :=
  ∃ slot block, v.slot? = some slot ∧ h.block? slot = some block ∧ block.header.kind = kind ∧
    kind.isHashable = false

variable {h : Heap} {key : Value}

theorem component?_of_item {items : List Value} (hcontent : h.content? key = some (.tuple items))
    {index : Nat} {path : List Nat} {item c : Value} (hitem : items[index]? = some item)
    (hc : h.component? item path = some c) : h.component? key (index :: path) = some c := by
  rw [component?, hcontent]
  exact Option.bind_eq_some_iff.mpr ⟨item, hitem, hc⟩

theorem exists_tuple_of_component? {index : Nat} {path : List Nat} {c : Value}
    (hc : h.component? key (index :: path) = some c) :
    ∃ items item, h.content? key = some (.tuple items) ∧ items[index]? = some item ∧
      h.component? item path = some c := by
  rw [component?] at hc
  split at hc
  next items hcontent =>
    obtain ⟨item, hitem, hc⟩ := Option.bind_eq_some_iff.mp hc
    exact ⟨items, item, hcontent, hitem, hc⟩
  next => cases hc

/-! ## Tuples in a rank

Each value is ranked by the number of slots that can be reached from it through tuples. -/

section Rank

theorem InTuple.of_slot? {outer outer' inner : Value} (hin : h.InTuple outer inner)
    (hslot : outer'.slot? = outer.slot?) : h.InTuple outer' inner := by
  obtain ⟨items, hcontent, hmem⟩ := hin
  exact ⟨items, by rwa [content?, hslot], hmem⟩

/-- If no tuple is in itself, then tuples have a rank above those of their elements, and none is
above the number of slots. -/
theorem exists_tuple_rank (hwf : WellFounded fun inner outer => h.InTuple outer inner) :
    ∃ rank : Value → Nat, (∀ outer inner, h.InTuple outer inner → rank inner < rank outer) ∧
      ∀ v, rank v ≤ h.slots.size := by
  have hplace (outer inner : Value) (hin : h.InTuple outer inner) :
      ∃ slot < h.slots.size, outer.slot? = some slot := by
    obtain ⟨items, hcontent, _⟩ := hin
    obtain ⟨slot, block, hslot, hblock, _⟩ := content?_eq_some hcontent
    exact ⟨slot, lt_size_of_block? hblock, hslot⟩
  obtain ⟨rank, hrank, hle⟩ := exists_slot_rank hplace fun _ _ _ => InTuple.of_slot?
  exact ⟨rank, fun outer inner hin => hrank outer inner hin (hwf.apply outer), hle⟩

end Rank

/-! ## Shallow hashes -/

section Digest

variable [Digest]

omit [Digest] in
theorem Shaped.length_toList (hshaped : h.Shaped) {slot : Nat} {block : Block}
    {seq : BoundedSeq Value} (hblock : h.block? slot = some block)
    (hbody : block.body = .objects seq) : seq.toList.length = seq.len :=
  BoundedSeq.length_toList (hshaped.len_le slot block seq hblock hbody)

/-- The keys with elements left to hash are the tuples. -/
theorem Shaped.shallowHash_eq_items_iff (hshaped : h.Shaped) {items : List Value} :
    h.shallowHash key = .ok (.items items) ↔ h.content? key = some (.tuple items) := by
  constructor
  · intro hshallow
    obtain ⟨slot, block, seq, hslot, hblock, hkind, hbody, rfl⟩ := shallowHash_items hshallow
    rw [content?_block hslot hblock]
    exact Block.content?_of_objects hbody
      (Block.kind_of_objects (hshaped.fits slot block hblock) hbody hkind)
  · intro hcontent
    obtain ⟨slot, block, hslot, hblock, htuple⟩ := content?_eq_some hcontent
    obtain ⟨seq, hbody, rfl, hkind⟩ := Block.content?_tuple htuple
    rw [shallowHash, number?_ref hslot hblock, hbody, hslot]
    simp only [liftM_ok_bind, block_eq hblock, shallowBlockHash, hkind, hbody]
    rfl

theorem shallowHash_block {slot : Nat} {block : Block} (hslot : key.slot? = some slot)
    (hblock : h.block? slot = some block) (hnumber : h.number? key = .ok none) :
    h.shallowHash key = shallowBlockHash key block := by
  rw [shallowHash, hnumber, hslot]
  exact congrArg (fun x : Except Fault Block => liftM x >>= shallowBlockHash key) (block_eq hblock)

/-- A shallow hash that fails has met a malformed word, a missing block, or a block of a kind
without keys. -/
theorem shallowHash_eq_error {stop : Stop} (hstop : h.shallowHash key = .error stop) :
    (∃ fault, stop = .fault fault ∧
      (h.number? key = .error fault ∨ ∃ slot, key.slot? = some slot ∧ h.block? slot = none)) ∨
    ∃ kind, stop = .refused (.unhashable kind) ∧ h.Unhashable key kind := by
  cases hnumber : h.number? key with
  | error fault =>
      rw [shallowHash, hnumber] at hstop
      cases hstop
      exact Or.inl ⟨fault, rfl, Or.inl rfl⟩
  | ok n =>
      cases n with
      | some n =>
          rw [shallowHash, hnumber] at hstop
          cases hstop
      | none =>
          cases hslot : key.slot? with
          | none =>
              rw [shallowHash, hnumber, hslot] at hstop
              cases hstop
          | some slot =>
              cases hblock : h.block? slot with
              | none =>
                  rw [shallowHash, hnumber, hslot] at hstop
                  simp only [liftM_ok_bind, block, hblock] at hstop
                  cases hstop
                  exact Or.inl ⟨_, rfl, Or.inr ⟨slot, rfl, hblock⟩⟩
              | some block =>
                  rw [shallowHash_block hslot hblock hnumber, shallowBlockHash] at hstop
                  split at hstop
                  next => split at hstop <;> cases hstop
                  next hkind =>
                    cases hstop
                    exact Or.inr ⟨_, rfl, slot, block, hslot, hblock, rfl, by simpa using hkind⟩

/-- A block of a kind without keys is no number. -/
theorem Shaped.shallowHash_of_unhashable (hshaped : h.Shaped) {kind : Kind}
    (hkind : h.Unhashable key kind) :
    h.shallowHash key = .error (.refused (.unhashable kind)) := by
  obtain ⟨slot, block, hslot, hblock, rfl, hkind⟩ := hkind
  have hnumber : h.number? key = .ok none := by
    have hfits := hshaped.fits slot block hblock
    rw [number?_ref hslot hblock]
    cases hbody : block.body with
    | integer n =>
        rw [hbody, Body.fits, beq_iff_eq] at hfits
        simp [hfits, Kind.isHashable, Kind.isMutable] at hkind
    | float x =>
        rw [hbody, Body.fits, beq_iff_eq] at hfits
        simp [hfits, Kind.isHashable, Kind.isMutable] at hkind
    | _ => rfl
  rw [shallowHash_block hslot hblock hnumber, shallowBlockHash, hkind]
  rfl

/-- A value that is there and can be decoded is hashed shallowly, unless its kind is without
keys. -/
theorem Live.shallowHash_cases (hlive : h.Live key) :
    (∃ start, h.shallowHash key = .ok start) ∨
      ∃ kind, h.shallowHash key = .error (.refused (.unhashable kind)) ∧ h.Unhashable key kind := by
  cases hshallow : h.shallowHash key with
  | ok start => exact Or.inl ⟨start, rfl⟩
  | error stop =>
      obtain ⟨fault, rfl, hfault⟩ | ⟨kind, rfl, hkind⟩ := shallowHash_eq_error hshallow
      · have hlooks := number?_looks hlive
        obtain hfault | ⟨slot, hslot, hnone⟩ := hfault
        · rw [hfault] at hlooks
          obtain ⟨_, hfalse, _⟩ := hlooks
          exact hfalse.elim
        · obtain ⟨block, hblock⟩ := Usable.block? hlive hslot
          cases hnone.symm.trans hblock
      · exact Or.inr ⟨kind, rfl, hkind⟩

/-- Whether a component is the first one without a shallow hash, in depth-first order. -/
structure FailsFirst (h : Heap) (key : Value) (path : List Nat) (c : Value) (stop : Stop) :
    Prop where
  component?_eq : h.component? key path = some c
  shallowHash_eq : h.shallowHash c = .error stop
  earlier : ∀ path' c', path' < path → h.component? key path' = some c' →
    ∃ start, h.shallowHash c' = .ok start

/-! ## The recursion -/

section Recursion

variable (hshaped : h.Shaped) (hwf : WellFounded fun inner outer => h.InTuple outer inner)
include hshaped

theorem finishHash_congr {hashItem hashItem' : Value → Except Stop UInt64}
    (hitems : ∀ item, h.InTuple key item → hashItem item = hashItem' item) :
    h.shallowHash key >>= finishHash hashItem = h.shallowHash key >>= finishHash hashItem' := by
  cases hshallow : h.shallowHash key with
  | error => rfl
  | ok start =>
      cases start with
      | done => rfl
      | items items =>
          have hcontent := hshaped.shallowHash_eq_items_iff.mp hshallow
          refine foldlM_congr (fun acc item hitem => ?_) _
          rw [hitems item ⟨items, hcontent, hitem⟩]

/-- Walks that go deeper than the rank of a key give it the same hash. -/
theorem hashWithin_eq_of_rank {rank : Value → Nat}
    (hrank : ∀ outer inner, h.InTuple outer inner → rank inner < rank outer) {depth depth' : Nat}
    (hdepth : rank key < depth) (hdepth' : rank key < depth') :
    h.hashWithin depth key = h.hashWithin depth' key := by
  induction depth generalizing key depth' with
  | zero => exact absurd hdepth (Nat.not_lt_zero _)
  | succ depth ih =>
      obtain ⟨depth', rfl⟩ := Nat.exists_eq_succ_of_ne_zero (Nat.ne_zero_of_lt hdepth')
      rw [hashWithin_eq_shallow fun _ _ _ => hshaped.length_toList,
        hashWithin_eq_shallow fun _ _ _ => hshaped.length_toList]
      refine finishHash_congr hshaped fun item hin => ?_
      have hless := hrank key item hin
      exact ih (by omega) (by omega)

include hwf

/-- A key is hashed shallowly, and then from the hashes of its elements. -/
theorem hashOf_eq_shallow (key : Value) :
    h.hashOf key = h.shallowHash key >>= finishHash h.hashOf := by
  obtain ⟨rank, hrank, hle⟩ := exists_tuple_rank hwf
  rw [hashOf, hashWithin_eq_shallow fun _ _ _ => hshaped.length_toList]
  refine finishHash_congr hshaped fun item hin => ?_
  have hless := hrank key item hin
  have hbound := hle key
  exact hashWithin_eq_of_rank hshaped hrank (by omega) (by omega)

/-- The recursion has one solution only. -/
theorem eq_hashOf_of_recursion {hash : Value → Except Stop UInt64}
    (hhash : ∀ key, hash key = h.shallowHash key >>= finishHash hash) : hash = h.hashOf := by
  funext key
  induction key using hwf.induction with
  | h key ih =>
      rw [hhash, hashOf_eq_shallow hshaped hwf]
      exact finishHash_congr hshaped fun item hin => ih item hin

/-- The loop over open tuples hashes a value as the recursion does. -/
theorem loopHashes_hashOf (v : Value) : h.LoopHashes v (h.hashOf v) := by
  induction v using hwf.induction with
  | h v ih =>
      rw [hashOf_eq_shallow hshaped hwf]
      exact loopHashes_of_items fun items hshallow item hitem =>
        ih item ⟨items, hshaped.shallowHash_eq_items_iff.mp hshallow, hitem⟩

theorem stackHash_eq_hashOf (v : Value) :
    ∃ enough, ∀ rounds ≥ enough, h.stackHash rounds v = h.hashOf v := by
  rw [hashOf_eq_shallow hshaped hwf]
  exact stackHash_of_items fun _ _ item _ => loopHashes_hashOf hshaped hwf item

/-! ## Failures -/

/-- The hash of a tuple. -/
theorem hashOf_tuple {items : List Value} (hcontent : h.content? key = some (.tuple items)) :
    h.hashOf key = items.foldlM (fun acc item => do return Digest.pair acc (← h.hashOf item))
      (Digest.count items.length) := by
  rw [hashOf_eq_shallow hshaped hwf, hshaped.shallowHash_eq_items_iff.mpr hcontent]
  rfl

theorem hashOf_eq_error_iff_shallow (hcontent : ¬ ∃ items, h.content? key = some (.tuple items))
    {stop : Stop} : h.hashOf key = .error stop ↔ h.shallowHash key = .error stop := by
  rw [hashOf_eq_shallow hshaped hwf]
  cases hshallow : h.shallowHash key with
  | error stop' => simp [bind, Except.bind]
  | ok start =>
      cases start with
      | done hash => simp [bind, Except.bind, finishHash]
      | items items => exact absurd ⟨items, hshaped.shallowHash_eq_items_iff.mp hshallow⟩ hcontent

/-- All components of a key that has a hash have shallow hashes. -/
theorem shallowHash_of_keyable {path : List Nat} {c : Value} (hkey : h.Keyable key)
    (hc : h.component? key path = some c) : ∃ start, h.shallowHash c = .ok start := by
  induction path generalizing key with
  | nil =>
      cases hc
      obtain ⟨hash, hhash⟩ := hkey
      rw [hashOf_eq_shallow hshaped hwf] at hhash
      cases hshallow : h.shallowHash c with
      | error stop =>
          rw [hshallow] at hhash
          cases hhash
      | ok start => exact ⟨start, rfl⟩
  | cons index path ih =>
      obtain ⟨items, item, hcontent, hitem, hc⟩ := exists_tuple_of_component? hc
      obtain ⟨hash, hhash⟩ := hkey
      rw [hashOf_tuple hshaped hwf hcontent] at hhash
      exact ih (exists_ok_of_foldlM hhash item (List.mem_of_getElem? hitem)) hc

/-- The first failure in a tuple is the first failure in its first element that fails. -/
theorem hashOf_tuple_eq_error_iff {items : List Value}
    (hcontent : h.content? key = some (.tuple items))
    (hitems : ∀ item ∈ items, ∀ stop, h.hashOf item = .error stop ↔
      ∃ path c, h.FailsFirst item path c stop) {stop : Stop} :
    h.hashOf key = .error stop ↔ ∃ path c, h.FailsFirst key path c stop := by
  have hkey := hshaped.shallowHash_eq_items_iff.mpr hcontent
  rw [hashOf_tuple hshaped hwf hcontent, foldlM_eq_error_iff]
  constructor
  · rintro ⟨index, item, hitem, hstop, hearlier⟩
    obtain ⟨path, c, hc, hcstop, hfirst⟩ :=
      (hitems item (List.mem_of_getElem? hitem) stop).mp hstop
    refine ⟨index :: path, c, component?_of_item hcontent hitem hc, hcstop,
      fun path' c' hlt hc' => ?_⟩
    cases path' with
    | nil =>
        cases hc'
        exact ⟨_, hkey⟩
    | cons index' path' =>
        obtain ⟨items', item', hcontent', hitem', hc'⟩ := exists_tuple_of_component? hc'
        cases hcontent.symm.trans hcontent'
        obtain hless | ⟨rfl, hless⟩ := List.cons_lt_cons_iff.mp hlt
        · exact shallowHash_of_keyable hshaped hwf (hearlier index' hless item' hitem') hc'
        · cases hitem.symm.trans hitem'
          exact hfirst path' c' hless hc'
  · rintro ⟨path, c, hc, hstop, hfirst⟩
    cases path with
    | nil =>
        cases hc
        cases hkey.symm.trans hstop
    | cons index path =>
        obtain ⟨items', item, hcontent', hitem, hc⟩ := exists_tuple_of_component? hc
        cases hcontent.symm.trans hcontent'
        refine ⟨index, item, hitem, (hitems item (List.mem_of_getElem? hitem) stop).mpr
          ⟨path, c, hc, hstop, fun path' c' hlt hc' => ?_⟩, fun earlier hlt item' hitem' => ?_⟩
        · exact hfirst (index :: path') c' (List.cons_lt_cons_iff.mpr (Or.inr ⟨rfl, hlt⟩))
            (component?_of_item hcontent hitem hc')
        · -- a failure in an earlier element would come first
          cases hhash : h.hashOf item' with
          | ok a => exact ⟨a, rfl⟩
          | error stop' =>
              obtain ⟨path', c', hc', hcstop, _⟩ :=
                (hitems item' (List.mem_of_getElem? hitem') stop').mp hhash
              obtain ⟨start, hok⟩ := hfirst (earlier :: path') c'
                (List.cons_lt_cons_iff.mpr (Or.inl hlt)) (component?_of_item hcontent hitem' hc')
              cases hok.symm.trans hcstop

/-- A hash fails as the first component does that has no shallow hash, in depth-first order. -/
theorem hashOf_eq_error_iff {stop : Stop} :
    h.hashOf key = .error stop ↔ ∃ path c, h.FailsFirst key path c stop := by
  induction key using hwf.induction generalizing stop with
  | h key ih =>
      by_cases hcontent : ∃ items, h.content? key = some (.tuple items)
      · obtain ⟨items, hcontent⟩ := hcontent
        exact hashOf_tuple_eq_error_iff hshaped hwf hcontent fun item hitem stop =>
          ih item ⟨items, hcontent, hitem⟩
      · rw [hashOf_eq_error_iff_shallow hshaped hwf hcontent]
        refine ⟨fun hstop => ⟨[], key, rfl, hstop, fun path' _ hlt =>
          absurd hlt (List.not_lt_nil path')⟩, ?_⟩
        rintro ⟨path, c, hc, hstop, _⟩
        cases path with
        | nil =>
            cases hc
            exact hstop
        | cons index path =>
            obtain ⟨items, _, htuple, _⟩ := exists_tuple_of_component? hc
            exact absurd ⟨items, htuple⟩ hcontent

/-- If all components are there and can be decoded, the first one of a kind without keys is what
makes a hash fail. -/
theorem hashOf_eq_unhashable_iff
    (hlive : ∀ path c, h.component? key path = some c → h.Live c) {kind : Kind} :
    h.hashOf key = .error (.refused (.unhashable kind)) ↔
      ∃ path c, h.component? key path = some c ∧ h.Unhashable c kind ∧
        ∀ path' c' kind', path' < path → h.component? key path' = some c' →
          ¬ h.Unhashable c' kind' := by
  rw [hashOf_eq_error_iff hshaped hwf]
  constructor
  · rintro ⟨path, c, hc, hstop, hfirst⟩
    refine ⟨path, c, hc, ?_, fun path' c' kind' hlt hc' hkind => ?_⟩
    · obtain ⟨_, hfault, _⟩ | ⟨_, heq, hkind⟩ := shallowHash_eq_error hstop
      · cases hfault
      · cases heq
        exact hkind
    · obtain ⟨start, hok⟩ := hfirst path' c' hlt hc'
      cases hok.symm.trans (hshaped.shallowHash_of_unhashable hkind)
  · rintro ⟨path, c, hc, hkind, hfirst⟩
    refine ⟨path, c, hc, hshaped.shallowHash_of_unhashable hkind, fun path' c' hlt hc' => ?_⟩
    obtain hok | ⟨kind', _, hkind'⟩ := (hlive path' c' hc').shallowHash_cases
    · exact hok
    · exact absurd hkind' (hfirst path' c' kind' hlt hc')

end Recursion

/-! ## Heaps of runs -/

section Runs

variable {admits : Value → Prop}

theorem Coherent.shaped (hc : h.Coherent admits) : h.Shaped := by
  refine ⟨hc.fits, fun slot block seq hblock hbody => ?_⟩
  have hvalid := hc.valid slot block hblock
  rw [hbody] at hvalid
  exact BoundedSeq.Valid.len_le hvalid

/-- In a coherent heap no tuple is in itself. -/
theorem Coherent.wellFounded_inTuple (hc : h.Coherent admits) :
    WellFounded fun inner outer => h.InTuple outer inner := by
  obtain ⟨height, hheight, _⟩ := hc.exists_height
  refine Subrelation.wf (fun {inner outer} hin => ?_)
    (measure fun v : Value => v.slot?.elim 0 (height · + 1)).wf
  obtain ⟨items, hcontent, hmem⟩ := hin
  obtain ⟨slot, block, hslot, hblock, htuple⟩ := content?_eq_some hcontent
  change inner.slot?.elim 0 (height · + 1) < outer.slot?.elim 0 (height · + 1)
  rw [hslot]
  cases hinner : inner.slot? with
  | none => exact Nat.succ_pos _
  | some slot' =>
      exact Nat.succ_lt_succ (hheight slot slot' ⟨block, _, inner, hblock, htuple, hmem, hinner⟩)

theorem Coherent.live_component (hc : h.Coherent fun _ => False) (hkey : h.Live key)
    {path : List Nat} {c : Value} (hcomponent : h.component? key path = some c) : h.Live c := by
  induction path generalizing key with
  | nil =>
      cases hcomponent
      exact hkey
  | cons index path ih =>
      obtain ⟨items, item, hcontent, hitem, hcomponent⟩ := exists_tuple_of_component? hcomponent
      exact ih (hc.members_usable hcontent (List.mem_of_getElem? hitem)) hcomponent

end Runs

/-- The stack of open tuples computes the recursive hash of a key. That is the only function that
hashes a tuple from its length and the hashes of its elements, from left to right, and all other
keys at once. It fails as the first component does that has no shallow hash. If all components are
there and can be decoded, this is the first one whose kind is without keys, and the failure names
that kind. -/
theorem Shaped.hashOf_recursive (hshaped : h.Shaped)
    (hwf : WellFounded fun inner outer => h.InTuple outer inner) :
    (∀ key, ∃ enough, ∀ rounds ≥ enough, h.stackHash rounds key = h.hashOf key) ∧
    (∀ key, h.hashOf key = h.shallowHash key >>= finishHash h.hashOf) ∧
    (∀ hash : Value → Except Stop UInt64,
      (∀ key, hash key = h.shallowHash key >>= finishHash hash) → hash = h.hashOf) ∧
    (∀ key stop, h.hashOf key = .error stop ↔ ∃ path c, h.FailsFirst key path c stop) ∧
    ∀ key kind, (∀ path c, h.component? key path = some c → h.Live c) →
      (h.hashOf key = .error (.refused (.unhashable kind)) ↔
        ∃ path c, h.component? key path = some c ∧ h.Unhashable c kind ∧
          ∀ path' c' kind', path' < path → h.component? key path' = some c' →
            ¬ h.Unhashable c' kind') :=
  ⟨stackHash_eq_hashOf hshaped hwf, hashOf_eq_shallow hshaped hwf,
    fun _ => eq_hashOf_of_recursion hshaped hwf, fun _ _ => hashOf_eq_error_iff hshaped hwf,
    fun _ _ hlive => hashOf_eq_unhashable_iff hshaped hwf hlive⟩

end Digest

/-- How two nested tuples are made: `(1, ())`, and one in which a list comes before a set, at the
end of an inner tuple. -/
def unhashableScript : List (List Value × Operation) :=
  [([], .newTuple #[]),
   ([], .newTuple #[Value.ofInline .smallInt 1, Value.ofSlot 0]),
   ([Value.ofSlot 1], .newList #[]),
   ([Value.ofSlot 1, Value.ofSlot 2], .newSet .set 0),
   ([Value.ofSlot 3], .newTuple #[Value.ofSlot 1, Value.ofSlot 2]),
   ([], .newTuple #[Value.ofSlot 1, Value.ofSlot 4, Value.ofSlot 3])]

theorem exists_unhashable : ∃ h : Heap, h.Reachable (fun _ => False) ∧
    h.passes (Value.ofSlot 5) = true ∧
    h.hashOf (Value.ofSlot 1) =
      .ok (Digest.pair (Digest.pair (Digest.count 2) (Digest.int 1)) (Digest.count 0)) ∧
    h.hashOf (Value.ofSlot 5) = .error (.refused (.unhashable .list)) := by
  refine exists_reachable_of_script Settings.standard unhashableScript ?_
  decide +kernel

theorem hashOf_recursive_unhashable : ∃ (h : Heap) (rounds : Nat) (path : List Nat) (c : Value),
    h.stackHash rounds (Value.ofSlot 1) =
      .ok (Digest.pair (Digest.pair (Digest.count 2) (Digest.int 1)) (Digest.count 0)) ∧
    h.stackHash rounds (Value.ofSlot 5) = .error (.refused (.unhashable .list)) ∧
    h.component? (Value.ofSlot 5) path = some c ∧ h.Unhashable c .list ∧
    ∀ path' c' kind', path' < path → h.component? (Value.ofSlot 5) path' = some c' →
      ¬ h.Unhashable c' kind' := by
  obtain ⟨h, hr, hpasses, hhash, hstop⟩ := exists_unhashable
  have hc := hr.sound.coherent
  obtain ⟨hstack, _, _, _, hfirst⟩ := hc.shaped.hashOf_recursive hc.wellFounded_inTuple
  obtain ⟨enough, hone⟩ := hstack (Value.ofSlot 1)
  obtain ⟨enough', hfive⟩ := hstack (Value.ofSlot 5)
  obtain ⟨path, c, hpath⟩ := (hfirst (Value.ofSlot 5) .list fun _ _ =>
    hc.live_component (usable_of_passes hpasses)).mp hstop
  exact ⟨h, max enough enough', path, c, (hone _ (le_max_left ..)).trans hhash,
    (hfive _ (le_max_right ..)).trans hstop, hpath⟩

end Heap

end ObjectHeap
