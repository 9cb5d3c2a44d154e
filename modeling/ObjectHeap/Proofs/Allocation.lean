import Mathlib.Tactic.Abel
import ObjectHeap.Proofs.Soundness

/-! # Allocation

What the steps behind every operation do to a sound heap: reserving bytes, allocating a block,
giving a block another payload or another extent, and keeping values in the registers for a
while. A refusal leaves the heap as it was, except that one for want of memory may leave it
collected.
-/

namespace ObjectHeap

/-- Whether the refusal is for want of memory. -/
def Refusal.isOutOfMemory : Refusal → Bool
  | .outOfMemory .. => true
  | _ => false

namespace Heap

variable [Digest] {admits : Value → Prop} {h h' : Heap} {starts : List Value}

/-- How a refusal may leave a heap. -/
structure Declined (admits : Value → Prop) (h : Heap) (starts : List Value) (refusal : Refusal)
    (h' : Heap) : Prop where
  sound : h'.Sound admits 0
  same : refusal.isOutOfMemory = false → h' = h
  pruned : h.Pruned starts h'

/-- A refusal may leave a heap as it is. -/
theorem Declined.refl (hs : h.Sound admits 0) (starts : List Value) (refusal : Refusal) :
    h.Declined admits starts refusal h :=
  ⟨hs, fun _ => rfl, Pruned.refl h starts⟩

theorem Declined.starts_congr {starts' : List Value} {refusal : Refusal}
    (hd : h.Declined admits starts refusal h')
    (hheld : ∀ slot, h.Held starts slot ↔ h.Held starts' slot) :
    h.Declined admits starts' refusal h' :=
  ⟨hd.sound, hd.same, hd.pruned.starts_congr hheld⟩

/-- The references in a coherent heap lead to blocks. -/
theorem Coherent.edgesLive (hc : h.Coherent admits) : h.EdgesLive :=
  fun slot block hb v hv => (hc.edges_usable slot block hb v hv).1

/-! ## Reserving -/

/-- What a reservation leaves: a sound heap in which the bytes reserved are loose. -/
structure Reserved (admits : Value → Prop) (h : Heap) (starts : List Value) (size : Nat)
    (extent : Extent) (h' : Heap) : Prop where
  sound : h'.Sound admits extent.bytes
  len_eq : extent.len = size
  aligned : extent.Aligned
  pruned : h.Pruned starts h'

/-- A reservation that needs no collection touches the arena alone. -/
theorem tryReserve_yields (hs : h.Sound admits 0) {size : Nat} (hsize : 8 ∣ size)
    {among : Value → Prop} {R : Refusal → Heap → Prop} :
    Yields among (tryReserve size) h
      (fun found h' => match found with
        | some extent => (∃ arena, h' = { h with arena }) ∧ h'.Sound admits extent.bytes ∧
            extent.len = size ∧ extent.Aligned
        | none => h' = h) R := by
  have hc := hs.consistent
  refine Yields.get ?_
  rcases Arena.reserve_spec hc.tidy hc.heapSize_lt size with
    ⟨hnone, _⟩ | ⟨taken, left, hsome, hr⟩
  · exact Yields.look_eq hnone (Yields.pure rfl)
  · refine Yields.look_eq hsome ?_
    refine Yields.set_bind (Yields.pure ⟨⟨left, rfl⟩, ⟨hc.reserve hsize hr, ?_⟩, hr.len_eq,
      (hr.aligned hsize hc.free_aligned).1⟩)
    exact hs.coherent.congr rfl hs.coherent.registers_usable

/-- Bytes can be reserved, or the request is refused for want of memory. -/
theorem reserve_yields (hs : h.Sound admits 0) {roots awaited : List Value} {size : Nat}
    (hsize : 8 ∣ size) (hroots : ∀ v ∈ roots, h.Usable admits v)
    (hawaited : ∀ v ∈ awaited, h.Usable admits v) {among : Value → Prop} :
    Yields among (reserve roots size awaited) h (h.Reserved admits (roots ++ awaited) size)
      (fun refusal h' => refusal.isOutOfMemory = true ∧
        h.Declined admits (roots ++ awaited) refusal h') := by
  refine Yields.bind (tryReserve_yields hs hsize) fun found h₁ hfound => ?_
  cases found with
  | some extent =>
      obtain ⟨⟨arena, rfl⟩, hsound, hlen, haligned⟩ := hfound
      exact Yields.pure ⟨hsound, hlen, haligned, (Pruned.refl h _).congr rfl rfl rfl rfl⟩
  | none =>
      subst hfound
      refine Yields.get ?_
      dsimp only
      split
      · -- no collection could free as much, so none is tried
        exact Yields.throw_bind ⟨rfl, Declined.refl hs ..⟩
      · obtain ⟨report, collected, hcycle, hcollected⟩ := cycle_spec hs.consistent
          hs.coherent.edgesLive (fun v hv => (hs.coherent.registers_usable v hv).1)
          (fun v hv => (hroots v hv).1) fun v hv => (hawaited v hv).1
        have hs' : collected.Sound admits 0 :=
          ⟨hcollected.consistent, hcollected.coherent hs.coherent⟩
        refine Yields.look_eq hcycle ?_
        refine Yields.set_bind ?_
        refine Yields.bind (tryReserve_yields hs' hsize) fun found h₂ hfound => ?_
        cases found with
        | some extent =>
            obtain ⟨⟨arena, rfl⟩, hsound, hlen, haligned⟩ := hfound
            exact Yields.pure ⟨hsound, hlen, haligned, hcollected.pruned.congr rfl rfl rfl rfl⟩
        | none =>
            subst hfound
            exact Yields.throw ⟨rfl, hs', fun hmemory => (nomatch hmemory), hcollected.pruned⟩

/-! ## Registers -/

omit [Digest] in
/-- The heap with some values kept alive in the registers. -/
def protectAll (h : Heap) (values : List Value) : Heap :=
  { h with registers := h.registers ++ values }

omit [Digest] in
/-- Values are protected by pushing them as registers, in order. -/
theorem toList_protectAll (h : Heap) (values : List Value) :
    (h.protectAll values).registers.toList = h.registers.toList ++ values := by
  simp [protectAll]

omit [Digest] in
theorem mem_protectAll {values : List Value} {v : Value} :
    v ∈ (h.protectAll values).registers ↔ v ∈ h.registers ∨ v ∈ values := by
  rw [← Array.mem_toList_iff, toList_protectAll, List.mem_append, Array.mem_toList_iff]

omit [Digest] in
/-- A register holds what a start holds. -/
theorem held_protectAll {values : List Value} {slot : Nat} :
    (h.protectAll values).Held starts slot ↔ h.Held (starts ++ values) slot := by
  constructor
  · refine fun hheld => hheld.transfer (fun v hv s hslot => ?_) (fun v hv s hslot => ?_)
      (fun s block _ hb => ⟨block, hb, rfl, fun _ hv => hv⟩)
    · exact .start (List.mem_append_left _ hv) hslot
    · rcases mem_protectAll.mp hv with hv | hv
      · exact .register hv hslot
      · exact .start (List.mem_append_right _ hv) hslot
  · refine fun hheld => hheld.transfer (fun v hv s hslot => ?_) (fun v hv s hslot => ?_)
      (fun s block _ hb => ⟨block, hb, rfl, fun _ hv => hv⟩)
    · rcases List.mem_append.mp hv with hv | hv
      · exact .start hv hslot
      · exact .register (mem_protectAll.mpr (Or.inr hv)) hslot
    · exact .register (mem_protectAll.mpr (Or.inl hv)) hslot

omit [Digest] in
/-- What survives while values are protected is what survives from these values too. -/
theorem survives_protectAll {values : List Value} {slot mark : Nat} :
    (h.protectAll values).Survives starts h' slot ↔
      h.Survives (starts ++ values) (h'.releaseRegisters mark) slot :=
  or_congr_right held_protectAll

omit [Digest] in
theorem toList_releaseRegisters (h : Heap) (mark : Nat) :
    (h.releaseRegisters mark).registers.toList = h.registers.toList.take mark := by
  simp [releaseRegisters]

/-- A heap stays sound while usable values are protected. -/
theorem Sound.protectAll (hs : h.Sound admits 0) {values : List Value}
    (hvalues : ∀ v ∈ values, h.Usable admits v) : (h.protectAll values).Sound admits 0 := by
  refine ⟨hs.consistent.congr rfl rfl rfl rfl rfl rfl rfl, hs.coherent.congr rfl fun v hv => ?_⟩
  rcases mem_protectAll.mp hv with hv | hv
  · exact hs.coherent.registers_usable v hv
  · exact hvalues v hv

theorem Sound.releaseRegisters {loose : Multiset Nat} (hs : h.Sound admits loose) (mark : Nat) :
    (h.releaseRegisters mark).Sound admits loose := by
  refine ⟨hs.consistent.congr rfl rfl rfl rfl rfl rfl rfl, hs.coherent.congr rfl fun v hv => ?_⟩
  rw [← Array.mem_toList_iff, toList_releaseRegisters] at hv
  exact hs.coherent.registers_usable v (Array.mem_toList_iff.mp (List.mem_of_mem_take hv))

omit [Digest] in
/-- Releasing to the mark that was taken restores the registers. -/
theorem releaseRegisters_protectAll {values : List Value}
    (hregisters : h'.registers = (h.protectAll values).registers) :
    (h'.releaseRegisters h.registerMark).registers = h.registers := by
  rw [← Array.toList_inj, toList_releaseRegisters, hregisters, toList_protectAll, registerMark,
    ← Array.length_toList, List.take_left]

omit [Digest] in
/-- Blocks that go away while values are protected are not held by these values. -/
theorem Pruned.unprotect {values : List Value} (hp : (h.protectAll values).Pruned starts h') :
    h.Pruned (starts ++ values) (h'.releaseRegisters h.registerMark) := by
  refine ⟨hp.settings_eq, releaseRegisters_protectAll hp.registers_eq, hp.size_eq,
    hp.collections_le, fun slot block => ?_⟩
  rw [← survives_protectAll]
  exact hp.block?_iff slot block

theorem Declined.unprotect {values : List Value} {refusal : Refusal}
    (hd : (h.protectAll values).Declined admits starts refusal h') :
    h.Declined admits (starts ++ values) refusal (h'.releaseRegisters h.registerMark) := by
  refine ⟨hd.sound.releaseRegisters _, fun hother => ?_, hd.pruned.unprotect⟩
  rw [hd.same hother]
  have hregisters : ((h.protectAll values).releaseRegisters h.registerMark).registers =
      h.registers := releaseRegisters_protectAll rfl
  exact congrArg (fun registers => { h with registers }) hregisters

omit [Digest] in
/-- A step may be run with values kept in the registers, if what it leaves is right once they
are released. -/
theorem yields_protecting {α : Type} {step : HeapM α} {values : List Value}
    {Q P : α → Heap → Prop} {R R' : Refusal → Heap → Prop}
    (hs : Yields admits step (h.protectAll values) Q R)
    (hQ : ∀ a h', Q a h' → P a (h'.releaseRegisters h.registerMark))
    (hR : ∀ refusal h', R refusal h' → R' refusal (h'.releaseRegisters h.registerMark)) :
    Yields admits (protecting values step) h P R' := by
  cases hstep : step (h.protectAll values) with
  | ok a h' =>
      have hprotecting : protecting values step h = .ok a (h'.releaseRegisters h.registerMark) := by
        rw [protectAll] at hstep
        simp only [protecting, hstep]
      exact Yields.of_ok hprotecting (hQ a h' (hs.result hstep))
  | error stop h' =>
      have hprotecting : protecting values step h =
          .error stop (h'.releaseRegisters h.registerMark) := by
        rw [protectAll] at hstep
        simp only [protecting, hstep]
      unfold Yields
      rw [hprotecting]
      cases stop with
      | refused refusal => exact hR refusal h' (hs.refusal hstep)
      | fault => exact hs.excuse hstep

/-! ## New blocks -/

/-- What an allocation leaves: a new block in a slot that nothing refers to. -/
structure Allocated (admits : Value → Prop) (h : Heap) (starts : List Value) (kind : Kind)
    (body : Body) (slot : Nat) (h' : Heap) : Prop where
  sound : h'.Sound admits 0
  settings_eq : h'.settings = h.settings
  registers_eq : h'.registers = h.registers
  size_le : h.slots.size ≤ h'.slots.size
  collections_le : h.collections ≤ h'.collections
  block : ∃ block, h'.block? slot = some block ∧ block.header.kind = kind ∧ block.body = body ∧
    block.header.pinned = false
  unreferenced : h'.Unreferenced slot
  fresh : ∀ block, h.block? slot = some block → ¬ h.Survives starts h' slot
  block?_iff : ∀ s block, s ≠ slot →
    (h'.block? s = some block ↔ h.block? s = some block ∧ h.Survives starts h' s)

/-- An allocation adds one block only. -/
theorem Allocated.before {kind : Kind} {body : Body} {slot : Nat}
    (hnew : h.Allocated admits starts kind body slot h') (s : Nat) (block : Block) (hs : s ≠ slot)
    (hb : h'.block? s = some block) : h.block? s = some block :=
  ((hnew.block?_iff s block hs).mp hb).1

/-- A block that survives is not where the new one is. -/
theorem Allocated.survives {kind : Kind} {body : Body} {slot : Nat}
    (hnew : h.Allocated admits starts kind body slot h') {s : Nat} {block : Block}
    (hb : h.block? s = some block) (hsurvives : h.Survives starts h' s) :
    s ≠ slot ∧ h'.block? s = some block := by
  have hne : s ≠ slot := by
    rintro rfl
    exact hnew.fresh block hb hsurvives
  exact ⟨hne, (hnew.block?_iff s block hne).mpr ⟨hb, hsurvives⟩⟩

/-- An allocation keeps what is held, in slots other than the new one. -/
theorem Allocated.kept {kind : Kind} {body : Body} {slot : Nat}
    (hnew : h.Allocated admits starts kind body slot h') (s : Nat) (block : Block)
    (hb : h.block? s = some block) (hheld : h.Held starts s) :
    s ≠ slot ∧ h'.block? s = some block :=
  hnew.survives hb (Or.inr hheld)

omit [Digest] in
theorem kind_not_inline {body : Body} {kind : Kind} (h : body.fits kind = true) :
    kind.isInline = false := by
  cases body <;> cases kind <;> first | rfl | simp [Body.fits, Kind.shape] at h

/-- An allocation yields a new block of the kind and payload asked for, or is refused for want
of memory. The collection that it may start keeps the roots and what the payload refers to. -/
theorem allocate_yields (hs : h.Sound admits 0) {roots : List Value} {kind : Kind} {body : Body}
    (hroots : ∀ v ∈ roots, h.Usable admits v) (ha : h.Accepts admits kind body)
    {among : Value → Prop} :
    Yields among (allocate roots kind body) h
      (fun v h' => ∃ slot, v.slot? = some slot ∧
        h.Allocated admits (roots ++ body.edges) kind body slot h')
      (fun refusal h' => refusal.isOutOfMemory = true ∧
        h.Declined admits (roots ++ body.edges) refusal h') := by
  refine Yields.look_eq (a := ()) (require_eq_ok_iff.mpr ha.fits) ?_
  refine Yields.bind (reserve_yields hs body.eight_dvd_blockSize hroots ha.edges_usable)
    fun extent mid hmid => ?_
  have ha' : mid.Accepts admits kind body := ha.pruned hmid.pruned hs.coherent
    fun v hv slot hslot => .start (List.mem_append_right _ hv) hslot
  let block : Block := ⟨{ kind, color := .white, pinned := false, extent }, body⟩
  have hheader : Header.new kind extent = .ok block.header := by
    rw [Header.new, kind_not_inline ha.fits]
    rfl
  refine Yields.look_eq hheader ?_
  have hproper : block.Proper := ⟨ha.fits, hmid.len_eq, hmid.aligned, rfl⟩
  have hloose : mid.Consistent block.header.extent.bytes := hmid.sound.consistent
  obtain ⟨slot, h', hinstall, hw⟩ := install_spec hloose hproper
  -- the slot was free, so nothing refers to it yet
  have hfresh (v : Value) (hv : mid.Usable admits v) : v.slot? ≠ some slot := by
    intro hslot
    obtain ⟨found, hfound⟩ := hv.block? hslot
    rw [hw.free] at hfound
    cases hfound
  have hunref := hmid.sound.coherent.unreferenced_of_none hw.free
  have hc' : h'.Coherent admits := hmid.sound.coherent.write hw.writes ha'
    (Or.inr ⟨hunref, fun v hv => hfresh v (ha'.edges_usable v hv)⟩)
  have hlt : slot < span32 :=
    Nat.lt_trans (lt_size_of_block? hw.writes.block?_slot) hw.consistent.size_lt
  refine Yields.of_ok hinstall ?_
  refine ⟨slot, Value.slot?_ofSlot hlt, ⟨hw.consistent, hc'⟩,
    hw.writes.settings_eq.trans hmid.pruned.settings_eq,
    hw.writes.registers_eq.trans hmid.pruned.registers_eq,
    hmid.pruned.size_eq ▸ hw.writes.size_le,
    hw.writes.collections_eq ▸ hmid.pruned.collections_le,
    ⟨block, hw.writes.block?_slot, rfl, rfl, rfl⟩, ?_, ?_, ?_⟩
  · intro s found hfound v hv
    rcases hw.writes.cases hfound with ⟨_, rfl⟩ | ⟨_, hfound'⟩
    · exact hfresh v (ha'.edges_usable v hv)
    · exact hunref s found hfound' v hv
  · intro found hfound hsurvives
    rw [Survives, hw.writes.collections_eq] at hsurvives
    have hmid' := (hmid.pruned.block?_iff slot found).mpr ⟨hfound, hsurvives⟩
    rw [hw.free] at hmid'
    cases hmid'
  · intro s found hne
    rw [hw.writes.block?_other s hne, Survives, hw.writes.collections_eq]
    exact hmid.pruned.block?_iff s found

/-! ## Other payloads -/

/-- What is left when a block got another payload: some blocks that were not held may be gone,
and all others are as they were. -/
structure Edited (admits : Value → Prop) (h : Heap) (starts : List Value) (slot : Nat)
    (kind : Kind) (body : Body) (h' : Heap) : Prop where
  sound : h'.Sound admits 0
  settings_eq : h'.settings = h.settings
  registers_eq : h'.registers = h.registers
  size_eq : h'.slots.size = h.slots.size
  collections_le : h.collections ≤ h'.collections
  block : ∃ block, h'.block? slot = some block ∧ block.header.kind = kind ∧ block.body = body
  pinned_eq : ∀ b b', h.block? slot = some b → h'.block? slot = some b' →
    b'.header.pinned = b.header.pinned
  survives : h.Survives starts h' slot
  block?_iff : ∀ s block, s ≠ slot →
    (h'.block? s = some block ↔ h.block? s = some block ∧ h.Survives starts h' s)

/-- An edit of one block keeps all others that are held. -/
theorem Edited.kept {slot : Nat} {kind : Kind} {body : Body}
    (he : h.Edited admits starts slot kind body h') (s : Nat) (block : Block)
    (hb : h.block? s = some block) (hheld : h.Held starts s) (hs : s ≠ slot) :
    h'.block? s = some block :=
  (he.block?_iff s block hs).mpr ⟨hb, Or.inr hheld⟩

omit [Digest] in
/-- A value that is held stays usable if its block is kept or replaced by another. -/
theorem usable_of_kept {slot : Nat} {v : Value} (hv : h.Usable admits v)
    (hblock : (h'.block? slot).isSome = true)
    (hkept : ∀ s block, h.block? s = some block → h.Held starts s → s ≠ slot →
      h'.block? s = some block)
    (hheld : h.Holds starts v) : h'.Usable admits v := by
  refine hv.mono fun s hs => ?_
  obtain ⟨block, hb⟩ := hv.block? hs
  by_cases heq : s = slot
  · rw [heq]
    exact hblock
  · rw [hkept s block hb (hheld s hs) heq]
    rfl

theorem Edited.usable {slot : Nat} {kind : Kind} {body : Body}
    (he : h.Edited admits starts slot kind body h') {v : Value} (hv : h.Usable admits v)
    (hheld : h.Holds starts v) : h'.Usable admits v := by
  obtain ⟨block, hb, _⟩ := he.block
  exact usable_of_kept hv (by rw [hb]; rfl) he.kept hheld

theorem Allocated.usable {slot : Nat} {kind : Kind} {body : Body}
    (ha : h.Allocated admits starts kind body slot h') {v : Value} (hv : h.Usable admits v)
    (hheld : h.Holds starts v) : h'.Usable admits v := by
  refine hv.mono fun s hs => ?_
  obtain ⟨block, hb⟩ := hv.block? hs
  rw [(ha.kept s block hb (hheld s hs)).2]
  rfl

/-- Another edit of the same block. -/
theorem Edited.trans {h'' : Heap} {slot : Nat} {kind : Kind} {body body' : Body}
    {starts' : List Value} (he : h.Edited admits starts slot kind body h')
    (he' : h'.Edited admits starts' slot kind body' h'')
    (hcollections : h''.collections = h'.collections)
    (hall : ∀ s, s ≠ slot → h''.block? s = h'.block? s) :
    h.Edited admits starts slot kind body' h'' := by
  refine ⟨he'.sound, he'.settings_eq.trans he.settings_eq, he'.registers_eq.trans he.registers_eq,
    he'.size_eq.trans he.size_eq, hcollections ▸ he.collections_le, he'.block, ?_, ?_,
    fun s block hs => ?_⟩
  · intro b b'' hb hb''
    obtain ⟨b', hb', _⟩ := he.block
    exact (he'.pinned_eq b' b'' hb' hb'').trans (he.pinned_eq b b' hb hb')
  · rw [Survives, hcollections]
    exact he.survives
  · rw [hall s hs, Survives, hcollections]
    exact he.block?_iff s block hs

omit [Digest] in
theorem modifyBlock_eq {slot : Nat} {block : Block} (hb : h.block? slot = some block)
    (change : Block → Block) :
    h.modifyBlock slot change =
      { h with slots := h.slots.setIfInBounds slot (some (change block)) } :=
  congrArg (fun slots => { h with slots }) (slots_modifyBlock hb change)

/-- A block may get another header with the same kind and extent, and another payload of the
same size. -/
theorem Sound.modifyBlock (hs : h.Sound admits 0) {slot : Nat} {b : Block}
    (hb : h.block? slot = some b) (change : Block → Block)
    (hkind : (change b).header.kind = b.header.kind)
    (hextent : (change b).header.extent = b.header.extent)
    (hcolor : (change b).header.color = b.header.color)
    (ha : h.Accepts admits b.header.kind (change b).body)
    (hsize : (change b).body.blockSize = b.body.blockSize)
    (hold : b.Alike (change b) ∨
      h.Unreferenced slot ∧ ∀ v ∈ (change b).body.edges, v.slot? ≠ some slot) :
    (h.modifyBlock slot change).Sound admits 0 ∧
      h.Writes slot (change b) (h.modifyBlock slot change) := by
  have hproper := hs.consistent.proper slot b hb
  have hnew : (change b).Proper := by
    refine ⟨by rw [hkind]; exact ha.fits, ?_, hextent ▸ hproper.aligned, hcolor.trans hproper.white⟩
    rw [hsize, ← hproper.size_eq, Header.size, Header.size, hextent]
  have hw : h.Writes slot (change b) (h.modifyBlock slot change) :=
    writes_of_setIfInBounds hb rfl rfl rfl (slots_modifyBlock hb change)
  refine ⟨⟨?_, hs.coherent.write hw (by rwa [hkind]) (hold.imp_left fun halike => ⟨b, hb, halike⟩)⟩,
    hw⟩
  rw [modifyBlock_eq hb]
  exact hs.consistent.write hb hnew hs.consistent.tidy hs.consistent.free_aligned (by rw [hextent])

/-- A block may get another payload of the same size, if its kind allows changes or nothing
refers to it. -/
theorem Sound.setBody (hs : h.Sound admits 0) {slot : Nat} {b : Block}
    (hb : h.block? slot = some b) {body : Body} (ha : h.Accepts admits b.header.kind body)
    (hsize : body.blockSize = b.body.blockSize)
    (hold : b.header.kind.isFrozen = false ∨
      h.Unreferenced slot ∧ ∀ v ∈ body.edges, v.slot? ≠ some slot) (starts : List Value) :
    h.Edited admits starts slot b.header.kind body (h.setBody slot body) := by
  have hfits := hs.coherent.fits slot b hb
  obtain ⟨hsound, hw⟩ := hs.modifyBlock hb ({ · with body }) rfl rfl rfl ha hsize
    (hold.imp_left fun hfrozen => ⟨rfl, hfits, ha.fits, fun hkind => by simp [hfrozen] at hkind⟩)
  refine ⟨hsound, hw.settings_eq, hw.registers_eq, by simp [Heap.setBody, Heap.modifyBlock],
    Nat.le_refl _, ⟨_, hw.block?_slot, rfl, rfl⟩, fun b₀ b' hb₀ hb' => ?_, Or.inl rfl,
    fun s block hne => ?_⟩
  · cases hb.symm.trans hb₀
    cases hw.block?_slot.symm.trans hb'
    rfl
  · rw [Heap.setBody, hw.block?_other s hne]
    exact ⟨fun hblock => ⟨hblock, Or.inl rfl⟩, And.left⟩

omit [Digest] in
/-- A new payload of one block leaves the others as they are. -/
theorem block?_setBody_other {slot s : Nat} (hs : s ≠ slot) (body : Body) :
    (h.setBody slot body).block? s = h.block? s := by
  simp [Heap.setBody, Heap.modifyBlock, block?, Array.getElem?_modify, Ne.symm hs]

omit [Digest] in
theorem writes_setBody {slot : Nat} {b : Block} (hb : h.block? slot = some b) (body : Body) :
    h.Writes slot { b with body } (h.setBody slot body) :=
  writes_of_setIfInBounds hb rfl rfl rfl (slots_modifyBlock hb _)

omit [Digest] in
theorem block?_setBody_self {slot : Nat} {b : Block} (hb : h.block? slot = some b) (body : Body) :
    (h.setBody slot body).block? slot = some { b with body } :=
  (writes_setBody hb body).block?_slot

/-- A reservation made while values are protected keeps them. -/
theorem Reserved.unprotect {values : List Value} {size : Nat} {extent : Extent}
    (hr : (h.protectAll values).Reserved admits starts size extent h') :
    h.Reserved admits (starts ++ values) size extent (h'.releaseRegisters h.registerMark) :=
  ⟨hr.sound.releaseRegisters _, hr.len_eq, hr.aligned, hr.pruned.unprotect⟩

/-- A block may get another extent, with a payload that refers to nothing new. -/
theorem resize_yields (hs : h.Sound admits 0) {roots operands : List Value} {slot size : Nat}
    {b : Block} (hb : h.block? slot = some b) (hroots : ∀ v ∈ roots, h.Usable admits v)
    (hoperands : ∀ v ∈ operands, h.Usable admits v) {grow : Body → Except Fault Body} {body : Body}
    (hgrow : grow b.body = .ok body) (hsize : body.blockSize = size)
    (ha : h.Accepts admits b.header.kind body) (hedges : ∀ v ∈ body.edges, v ∈ b.body.edges)
    (hfrozen : b.header.kind.isFrozen = false) :
    Yields admits (resize roots slot operands size grow) h
      (fun _ h' => h.Edited admits (roots ++ Value.ofSlot slot :: operands) slot b.header.kind
        body h')
      (fun refusal h' => refusal.isOutOfMemory = true ∧
        h.Declined admits (roots ++ Value.ofSlot slot :: operands) refusal h') := by
  have hslot : (Value.ofSlot slot).slot? = some slot :=
    Value.slot?_ofSlot (Nat.lt_trans (lt_size_of_block? hb) hs.consistent.size_lt)
  have hvalues : ∀ v ∈ Value.ofSlot slot :: operands, h.Usable admits v := by
    intro v hv
    rcases List.mem_cons.mp hv with rfl | hv
    · exact usable_of_slot? hslot hb
    · exact hoperands v hv
  refine Yields.get (Yields.look_eq (block_eq hb) ?_)
  -- a collection cannot take the block or the operands, which are in the registers meanwhile
  have hreserve : Yields admits (protecting (Value.ofSlot slot :: operands) (reserve roots size []))
      h (h.Reserved admits (roots ++ Value.ofSlot slot :: operands) size)
      (fun refusal h' => refusal.isOutOfMemory = true ∧
        h.Declined admits (roots ++ Value.ofSlot slot :: operands) refusal h') := by
    refine yields_protecting (reserve_yields (hs.protectAll hvalues)
      (hsize ▸ body.eight_dvd_blockSize) hroots (by simp)) (fun extent h' hr => ?_)
      fun refusal h' hd => ?_
    · rw [List.append_nil] at hr
      exact hr.unprotect
    · rw [List.append_nil] at hd
      exact ⟨hd.1, hd.2.unprotect⟩
  refine Yields.bind hreserve fun extent mid hmid => ?_
  have hheld : h.Held (roots ++ Value.ofSlot slot :: operands) slot :=
    .start (List.mem_append_right _ (List.mem_cons_self ..)) hslot
  have hb' := hmid.pruned.kept slot b hb hheld
  have hc := hmid.sound.consistent
  have hproper := hc.proper slot b hb'
  -- the block still owns its old extent, so that this can be given back
  obtain ⟨hstop, hapart⟩ := Sweep.extent_apart
    ((add_assoc _ _ _).symm.trans hc.tiles) (block?_eq_some_iff.mp hb')
    (Nat.lt_of_lt_of_le (by decide) hproper.le_len)
  obtain ⟨arena, hrelease, hr⟩ := Arena.release_spec hc.tidy hc.heapSize_lt
    (Nat.lt_of_lt_of_le (by decide) hproper.le_len) hstop
    (hapart.mono_right (Multiset.le_add_right _ _))
  refine Yields.get (Yields.look_eq (block_eq hb') (Yields.look_eq hrelease
    (Yields.look_eq hgrow (Yields.look_eq (a := ())
      (require_eq_ok_iff.mpr (by simpa using hsize)) ?_))))
  refine Yields.set ?_
  let new : Block := ⟨{ b.header with extent }, body⟩
  have hb'' : ({ mid with arena } : Heap).block? slot = some b := hb'
  have ha' : mid.Accepts admits b.header.kind body := ha.pruned hmid.pruned hs.coherent
    fun v hv next hnext => hheld.edge hb (hedges v hv) hnext
  have hnew : new.Proper := ⟨ha.fits, by rw [hsize]; exact hmid.len_eq, hmid.aligned, hproper.white⟩
  rw [modifyBlock_eq hb'']
  have hw : mid.Writes slot new
      { mid with slots := mid.slots.setIfInBounds slot (some new), arena } :=
    writes_of_setIfInBounds hb' rfl rfl rfl rfl
  have halike : b.Alike new := ⟨rfl, hproper.fits, ha.fits, fun hkind => by simp [hfrozen] at hkind⟩
  refine ⟨⟨hc.write hb' hnew hr.tidy (hr.aligned hproper.aligned hc.free_aligned) ?_,
    hmid.sound.coherent.write hw ha' (Or.inl ⟨b, hb', halike⟩)⟩, hmid.pruned.settings_eq,
    hmid.pruned.registers_eq, ?_, hmid.pruned.collections_le, ⟨new, hw.block?_slot, rfl, rfl⟩,
    fun b₀ new' hb₀ hnew' => ?_, Or.inr hheld, ?_⟩
  · rw [hr.bytes_eq]
    abel
  · exact (Array.size_setIfInBounds ..).trans hmid.pruned.size_eq
  · cases hb.symm.trans hb₀
    cases hw.block?_slot.symm.trans hnew'
    rfl
  · intro s block hne
    rw [hw.block?_other s hne]
    exact hmid.pruned.block?_iff s block

end Heap

end ObjectHeap
