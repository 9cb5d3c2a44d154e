import ObjectHeap.Heap.Allocate
import ObjectHeap.Proofs.Collection
import ObjectHeap.Proofs.Equality

/-! # Soundness

A heap is *sound* if its representation is consistent and its contents are coherent. Every
operation is made of a few changes: a collection, a new block in a free slot, another payload
or another extent for a block, and other registers. Each of them keeps a heap sound.
-/

namespace ObjectHeap

namespace Heap

variable [Digest] {admits : Value → Prop} {h h' : Heap}

/-- What holds of a heap between the steps of an operation, with some bytes of the arena
loose. -/
structure Sound (admits : Value → Prop) (h : Heap) (loose : Multiset Nat) : Prop where
  consistent : h.Consistent loose
  coherent : h.Coherent admits

/-! ## Contents -/

/-- A heap is coherent if it agrees with a coherent one on all that its blocks refer to. -/
theorem Coherent.of_agree (hc : h.Coherent admits) {among : Value → Prop}
    (hagree : h.Agree h' among) (hsize : h.slots.size ≤ h'.slots.size)
    (hbefore : ∀ v, among v → h.Usable admits v) (hafter : ∀ v, among v → h'.Usable admits v)
    (hamong : ∀ slot block, h'.block? slot = some block → ∀ v ∈ block.body.edges, among v)
    (hfits : ∀ slot block, h'.block? slot = some block →
      block.body.fits block.header.kind = true)
    (hvalid : ∀ slot block, h'.block? slot = some block → block.body.Valid)
    (hregisters : ∀ v ∈ h'.registers, h'.Usable admits v)
    (hkeyed : ∀ slot block table, h'.block? slot = some block → block.body = .hash table →
      h.Keyed table)
    (hsettled : ∃ rank, h'.SettledBy rank) : h'.Coherent admits := by
  refine ⟨hfits, hvalid, fun slot block hblock v hv => hafter v (hamong slot block hblock v hv),
    hregisters, fun slot block table hblock hbody => ?_, hsettled⟩
  refine (hkeyed slot block table hblock hbody).agree hagree hc hsize
    fun hash key value hentry => ?_
  have hkey : among key := by
    refine hamong slot block hblock key ?_
    rw [hbody]
    exact ProbeTable.mem_edges.mpr ⟨hash, key, value, hentry, Or.inl rfl⟩
  exact ⟨hkey, hbefore key hkey⟩

/-- Coherence depends on the slots and on which values the registers hold. -/
theorem Coherent.congr (hc : h.Coherent admits) (hslots : h'.slots = h.slots)
    (hregisters : ∀ v ∈ h'.registers, h.Usable admits v) : h'.Coherent admits := by
  have hblock (slot : Nat) : h'.block? slot = h.block? slot := by rw [block?, block?, hslots]
  have husable (v : Value) (hv : h.Usable admits v) : h'.Usable admits v := by
    refine hv.mono fun slot hslot => ?_
    obtain ⟨block, hb⟩ := hv.block? hslot
    rw [hblock, hb]
    rfl
  have hagree : h.Agree h' (h.Usable admits) := by
    refine ⟨fun v slot hv hslot => ?_, hc.agree_self.closed⟩
    obtain ⟨b, hb⟩ := hv.block? hslot
    exact ⟨b, b, hb, (hblock slot).trans hb, Block.Alike.refl (hc.fits slot b hb)⟩
  obtain ⟨rank, hrank⟩ := hc.settled
  refine hc.of_agree hagree (by rw [hslots]) (fun _ hv => hv) husable
    (fun slot block hb => hc.edges_usable slot block (hblock slot ▸ hb))
    (fun slot block hb => hc.fits slot block (hblock slot ▸ hb))
    (fun slot block hb => hc.valid slot block (hblock slot ▸ hb))
    (fun v hv => husable v (hregisters v hv))
    (fun slot block table hb => hc.keyed slot block table (hblock slot ▸ hb))
    ⟨rank, fun a b hab => hrank a b ?_⟩
  obtain ⟨block, v, hb, hv, hslot⟩ := hab
  exact ⟨block, v, hblock a ▸ hb, hv, hslot⟩

omit [Digest] in
/-- Whether no block refers to a slot. -/
def Unreferenced (h : Heap) (slot : Nat) : Prop :=
  ∀ other block, h.block? other = some block → ∀ v ∈ block.body.edges, v.slot? ≠ some slot

/-- Nothing refers to a slot without a block. -/
theorem Coherent.unreferenced_of_none (hc : h.Coherent admits) {slot : Nat}
    (hnone : h.block? slot = none) : h.Unreferenced slot := by
  intro other block hblock v hv hslot
  obtain ⟨found, hfound⟩ := (hc.edges_usable other block hblock v hv).block? hslot
  rw [hnone] at hfound
  cases hfound

omit [Digest] in
/-- How a heap changes when a block is written into a slot. -/
structure Writes (h : Heap) (slot : Nat) (new : Block) (h' : Heap) : Prop where
  settings_eq : h'.settings = h.settings
  registers_eq : h'.registers = h.registers
  collections_eq : h'.collections = h.collections
  size_le : h.slots.size ≤ h'.slots.size
  block?_slot : h'.block? slot = some new
  block?_other : ∀ s, s ≠ slot → h'.block? s = h.block? s

omit [Digest] in
/-- Values stay usable when a block is written. -/
theorem Writes.usable {slot : Nat} {new : Block} (hw : h.Writes slot new h') {v : Value}
    (hv : h.Usable admits v) : h'.Usable admits v := by
  refine hv.mono fun s hs => ?_
  obtain ⟨block, hb⟩ := hv.block? hs
  by_cases heq : s = slot
  · rw [heq, hw.block?_slot]
    rfl
  · rw [hw.block?_other s heq, hb]
    rfl

omit [Digest] in
/-- Of two writes to a slot, the later one counts. -/
theorem Writes.trans {h'' : Heap} {slot : Nat} {new new' : Block} (hw : h.Writes slot new h')
    (hw' : h'.Writes slot new' h'') : h.Writes slot new' h'' :=
  ⟨hw'.settings_eq.trans hw.settings_eq, hw'.registers_eq.trans hw.registers_eq,
    hw'.collections_eq.trans hw.collections_eq, hw.size_le.trans hw'.size_le, hw'.block?_slot,
    fun s hs => (hw'.block?_other s hs).trans (hw.block?_other s hs)⟩

omit [Digest] in
/-- A block after a write is the one written, or was there before. -/
theorem Writes.cases {slot : Nat} {new : Block} (hw : h.Writes slot new h') {s : Nat}
    {block : Block} (hb : h'.block? s = some block) :
    s = slot ∧ block = new ∨ s ≠ slot ∧ h.block? s = some block := by
  by_cases hs : s = slot
  · subst hs
    exact Or.inl ⟨rfl, Option.some.inj (hb.symm.trans hw.block?_slot)⟩
  · exact Or.inr ⟨hs, hw.block?_other s hs ▸ hb⟩

/-- Whether a payload may stand in a block of a kind: it fits, and what it refers to is there
and keyed rightly. -/
structure Accepts (admits : Value → Prop) (h : Heap) (kind : Kind) (body : Body) : Prop where
  fits : body.fits kind = true
  valid : body.Valid
  edges_usable : ∀ v ∈ body.edges, h.Usable admits v
  keyed : ∀ table, body = .hash table → h.Keyed table

/-- What a coherent heap holds is accepted for the kind it has. -/
theorem Coherent.accepts (hc : h.Coherent admits) {slot : Nat} {block : Block}
    (hb : h.block? slot = some block) : h.Accepts admits block.header.kind block.body :=
  ⟨hc.fits slot block hb, hc.valid slot block hb, hc.edges_usable slot block hb,
    fun table => hc.keyed slot block table hb⟩

/-- Writing a block into a slot keeps a heap coherent if the block is like the one before it, or
if nothing refers to the slot. -/
theorem Coherent.write (hc : h.Coherent admits) {slot : Nat} {new : Block}
    (hw : h.Writes slot new h') (haccepts : h.Accepts admits new.header.kind new.body)
    (hold : (∃ old, h.block? slot = some old ∧ old.Alike new) ∨
      h.Unreferenced slot ∧ ∀ v ∈ new.body.edges, v.slot? ≠ some slot) :
    h'.Coherent admits := by
  have hblock {s : Nat} {block : Block} (hb : h'.block? s = some block) := hw.cases hb
  -- in the second case the slot itself is left out of the agreement
  let among (v : Value) : Prop := h.Usable admits v ∧
    ((∃ old, h.block? slot = some old ∧ old.Alike new) ∨ v.slot? ≠ some slot)
  have hamong (s : Nat) (block : Block) (hb : h'.block? s = some block) (v : Value)
      (hv : v ∈ block.body.edges) : among v := by
    rcases hblock hb with ⟨rfl, rfl⟩ | ⟨hs, hb'⟩
    · exact ⟨haccepts.edges_usable v hv, hold.imp_right fun hunref => hunref.2 v hv⟩
    · exact ⟨hc.edges_usable s block hb' v hv,
        hold.imp_right fun hunref => hunref.1 s block hb' v hv⟩
  have hagree : h.Agree h' among := by
    refine ⟨fun v s hv hs => ?_, fun v s b w hv hs hb hw => ?_⟩
    · obtain ⟨b, hb⟩ := hv.1.block? hs
      by_cases heq : s = slot
      · subst heq
        rcases hv.2 with ⟨old, hold', halike⟩ | hne
        · exact ⟨old, new, hold', hw.block?_slot, halike⟩
        · exact absurd hs hne
      · exact ⟨b, b, hb, (hw.block?_other s heq).trans hb, Block.Alike.refl (hc.fits s b hb)⟩
    · exact ⟨hc.parts_usable hb hw,
        hold.imp_right fun hunref => hunref.1 s b hb w (Block.mem_edges_of_mem_parts hw)⟩
  refine hc.of_agree hagree hw.size_le (fun _ hv => hv.1) (fun _ hv => hw.usable hv.1) hamong
    ?_ ?_ ?_ ?_ ?_
  · intro s block hb
    rcases hblock hb with ⟨rfl, rfl⟩ | ⟨_, hb'⟩
    · exact haccepts.fits
    · exact hc.fits s block hb'
  · intro s block hb
    rcases hblock hb with ⟨rfl, rfl⟩ | ⟨_, hb'⟩
    · exact haccepts.valid
    · exact hc.valid s block hb'
  · intro v hv
    exact hw.usable (hc.registers_usable v (hw.registers_eq ▸ hv))
  · intro s block table hb hbody
    rcases hblock hb with ⟨rfl, rfl⟩ | ⟨_, hb'⟩
    · exact haccepts.keyed table hbody
    · exact hc.keyed s block table hb' hbody
  · rcases hold with ⟨old, hold', halike⟩ | ⟨hunref, hself⟩
    · -- what the block refers to for good is what it did before
      obtain ⟨rank, hrank⟩ := hc.settled
      refine ⟨rank, fun a b hab => hrank a b ?_⟩
      obtain ⟨block, v, hb, hv, hslot⟩ := hab
      rcases hblock hb with ⟨rfl, rfl⟩ | ⟨_, hb'⟩
      · exact ⟨old, v, hold', halike.fixed_eq ▸ hv, hslot⟩
      · exact ⟨block, v, hb', hv, hslot⟩
    · -- the block comes last, as nothing refers to it
      obtain ⟨rank, hrank, hdepth⟩ := hc.exists_settled_rank
      refine ⟨fun s => if s = slot then h.slots.size else rank s, fun a b hab => ?_⟩
      obtain ⟨block, v, hb, hv, hslot⟩ := hab
      have hv' := Block.mem_edges_of_mem_fixed hv
      rcases hblock hb with ⟨rfl, rfl⟩ | ⟨ha, hb'⟩
      · have hne : b ≠ a := fun heq => hself v hv' (heq ▸ hslot)
        have hless := (hdepth v (haccepts.edges_usable v hv')).2 b hslot
        simp only [if_neg hne, if_true]
        omega
      · have hne : b ≠ slot := fun heq => hunref a block hb' v hv' (heq ▸ hslot)
        simp only [if_neg hne, if_neg ha]
        exact hrank a b ⟨block, v, hb', hv, hslot⟩

omit [Digest] in
/-- How a heap changes when the blocks that are not held go away, or nothing does. -/
structure Pruned (h : Heap) (starts : List Value) (h' : Heap) : Prop where
  settings_eq : h'.settings = h.settings
  registers_eq : h'.registers = h.registers
  size_eq : h'.slots.size = h.slots.size
  collections_le : h.collections ≤ h'.collections
  block?_iff : ∀ slot block, h'.block? slot = some block ↔
    h.block? slot = some block ∧ h.Survives starts h' slot

section Pruned

omit [Digest]

variable {starts : List Value}

/-- No collection makes a block. -/
theorem Pruned.before (hp : h.Pruned starts h') (slot : Nat) (block : Block)
    (hb : h'.block? slot = some block) : h.block? slot = some block :=
  ((hp.block?_iff slot block).mp hb).1

/-- A collection keeps what is held. -/
theorem Pruned.kept (hp : h.Pruned starts h') (slot : Nat) (block : Block)
    (hb : h.block? slot = some block) (hheld : h.Held starts slot) : h'.block? slot = some block :=
  (hp.block?_iff slot block).mpr ⟨hb, Or.inr hheld⟩

theorem Pruned.refl (h : Heap) (starts : List Value) : h.Pruned starts h :=
  ⟨rfl, rfl, rfl, Nat.le_refl _, fun _ _ => ⟨fun hb => ⟨hb, Or.inl rfl⟩, And.left⟩⟩

theorem Pruned.starts_congr {starts' : List Value} (hp : h.Pruned starts h')
    (hheld : ∀ slot, h.Held starts slot ↔ h.Held starts' slot) : h.Pruned starts' h' :=
  ⟨hp.settings_eq, hp.registers_eq, hp.size_eq, hp.collections_le, fun slot block => by
    rw [hp.block?_iff, survives_congr hheld]⟩

/-- Being pruned does not depend on the arena. -/
theorem Pruned.congr {h'' : Heap} (hp : h.Pruned starts h') (hsettings : h''.settings = h'.settings)
    (hregisters : h''.registers = h'.registers) (hslots : h''.slots = h'.slots)
    (hcollections : h''.collections = h'.collections) : h.Pruned starts h'' := by
  refine ⟨hsettings.trans hp.settings_eq, hregisters.trans hp.registers_eq,
    (congrArg Array.size hslots).trans hp.size_eq, hcollections ▸ hp.collections_le,
    fun slot block => ?_⟩
  rw [Survives, hcollections, block?, hslots]
  exact hp.block?_iff slot block

/-- A value that is held stays usable. -/
theorem Pruned.usable (hp : h.Pruned starts h') {v : Value} (hv : h.Usable admits v)
    (hheld : h.Holds starts v) : h'.Usable admits v := by
  refine hv.mono fun slot hslot => ?_
  obtain ⟨block, hb⟩ := hv.block? hslot
  rw [hp.kept slot block hb (hheld slot hslot)]
  rfl

/-- Blocks that were collected are gone, and nothing else changed. -/
theorem Collected.pruned (hcollected : h.Collected starts h') : h.Pruned starts h' := by
  refine ⟨hcollected.settings_eq, hcollected.registers_eq, hcollected.size_eq, ?_,
    fun slot block => ?_⟩
  · rw [hcollected.collections_eq]
    exact Nat.le_succ _
  · rw [hcollected.block?_iff, Survives, hcollected.collections_eq]
    simp

end Pruned

/-- A pruned heap agrees with the one before on what is held. -/
theorem Pruned.agree {starts : List Value} (hp : h.Pruned starts h') (hc : h.Coherent admits) :
    h.Agree h' fun v => h.Usable admits v ∧ h.Holds starts v := by
  refine ⟨fun v slot hv hslot => ?_, fun v slot b w hv hslot hb hw => ?_⟩
  · obtain ⟨b, hb⟩ := hv.1.block? hslot
    exact ⟨b, b, hb, hp.kept slot b hb (hv.2 slot hslot), Block.Alike.refl (hc.fits slot b hb)⟩
  · exact ⟨hc.parts_usable hb hw, fun next hnext =>
      (hv.2 slot hslot).edge hb (Block.mem_edges_of_mem_parts hw) hnext⟩

/-- What a payload needs is still there after pruning if its edges are held. -/
theorem Accepts.pruned {starts : List Value} {kind : Kind} {body : Body}
    (ha : h.Accepts admits kind body) (hp : h.Pruned starts h') (hc : h.Coherent admits)
    (hheld : ∀ v ∈ body.edges, ∀ slot, v.slot? = some slot → h.Held starts slot) :
    h'.Accepts admits kind body := by
  refine ⟨ha.fits, ha.valid, fun v hv => hp.usable (ha.edges_usable v hv) (hheld v hv), ?_⟩
  intro table hbody
  refine (ha.keyed table hbody).agree (hp.agree hc) hc (Nat.le_of_eq hp.size_eq.symm)
    fun hash key value hentry => ?_
  have hkey : key ∈ body.edges := by
    rw [hbody]
    exact ProbeTable.mem_edges.mpr ⟨hash, key, value, hentry, Or.inl rfl⟩
  have husable := ha.edges_usable key hkey
  exact ⟨⟨husable, hheld key hkey⟩, husable⟩

/-- A heap stays coherent when blocks are collected, for no reference of a kept block leads to
one that is gone. -/
theorem Collected.coherent {starts : List Value} (hcollected : h.Collected starts h')
    (hc : h.Coherent admits) : h'.Coherent admits := by
  have hblock {slot : Nat} {block : Block} (hb : h'.block? slot = some block) :=
    (hcollected.block?_iff slot block).mp hb
  obtain ⟨rank, hrank⟩ := hc.settled
  refine hc.of_agree (hcollected.pruned.agree hc) (by rw [hcollected.size_eq]) (fun _ hv => hv.1)
    (fun _ hv => hcollected.pruned.usable hv.1 hv.2)
    (fun slot block hb v hv => ⟨hc.edges_usable slot block (hblock hb).1 v hv,
      fun next hnext => (hblock hb).2.edge (hblock hb).1 hv hnext⟩)
    (fun slot block hb => hc.fits slot block (hblock hb).1)
    (fun slot block hb => hc.valid slot block (hblock hb).1)
    (fun v hv => ?_)
    (fun slot block table hb => hc.keyed slot block table (hblock hb).1)
    ⟨rank, fun a b hab => hrank a b ?_⟩
  · rw [hcollected.registers_eq] at hv
    exact hcollected.pruned.usable (hc.registers_usable v hv) fun slot hslot => .register hv hslot
  · obtain ⟨block, v, hb, hv, hslot⟩ := hab
    exact ⟨block, v, (hblock hb).1, hv, hslot⟩

/-! ## Representation -/

omit [Digest] in
/-- The representation is not concerned with registers and reports. -/
theorem Consistent.congr {loose : Multiset Nat} (hc : h.Consistent loose)
    (hsettings : h'.settings = h.settings) (hslots : h'.slots = h.slots)
    (hfree : h'.freeSlots = h.freeSlots) (harena : h'.arena = h.arena)
    (hlive : h'.liveObjects = h.liveObjects) (hphase : h'.phase = h.phase)
    (hstack : h'.markStack = h.markStack) : h'.Consistent loose := by
  refine ⟨hsettings ▸ hc.settings_ok, hsettings ▸ harena ▸ hc.tidy, ?_, harena ▸ hc.free_aligned,
    hfree ▸ hc.freeSlots_nodup, ?_, ?_, ?_, ?_, hphase.trans hc.phase_eq,
    hstack.trans hc.markStack_eq⟩
  · rw [hslots, harena, hsettings]
    exact hc.tiles
  · rw [hfree, hslots]
    exact hc.mem_freeSlots
  · rw [hlive, hslots]
    exact hc.liveObjects_eq
  · rw [hslots, hsettings]
    exact hc.slots_le
  · intro slot block hb
    rw [block?, hslots] at hb
    exact hc.proper slot block hb

omit [Digest] in
/-- A reservation makes its extent loose. -/
theorem Consistent.reserve {size : Nat} {taken : Extent} {left : Arena} (hc : h.Consistent 0)
    (hsize : 8 ∣ size) (hr : h.arena.Reserves h.settings.heapSize size taken left) :
    ({ h with arena := left } : Heap).Consistent taken.bytes := by
  refine ⟨hc.settings_ok, hr.tidy, ?_, (hr.aligned hsize hc.free_aligned).2, hc.freeSlots_nodup,
    hc.mem_freeSlots, hc.liveObjects_eq, hc.slots_le, hc.proper, hc.phase_eq, hc.markStack_eq⟩
  have htiles := hc.tiles
  rw [add_zero, ← hr.bytes_eq] at htiles
  rw [← htiles]
  simp only [add_assoc]

omit [Digest] in
theorem block?_of_setIfInBounds {slot : Nat} {content : Option Block} (hlt : slot < h.slots.size)
    (hslots : h'.slots = h.slots.setIfInBounds slot content) (s : Nat) :
    h'.block? s = if s = slot then content else h.block? s := by
  rw [block?, block?, hslots, Array.getElem?_setIfInBounds]
  by_cases hs : slot = s
  · simp [hs, hs ▸ hlt]
  · simp [hs, Ne.symm hs]

omit [Digest] in
/-- A change of a block is one of its slot. -/
theorem slots_modifyBlock {slot : Nat} {block : Block} (hblock : h.block? slot = some block)
    (change : Block → Block) :
    (h.modifyBlock slot change).slots = h.slots.setIfInBounds slot (some (change block)) := by
  have hlt := lt_size_of_block? hblock
  refine Array.ext_getElem? fun i => ?_
  rw [modifyBlock, Array.getElem?_modify, Array.getElem?_setIfInBounds]
  by_cases hi : slot = i
  · subst hi
    rw [if_pos rfl, if_pos rfl, if_pos hlt, block?_eq_some_iff.mp hblock]
    rfl
  · rw [if_neg hi, if_neg hi]

omit [Digest] in
theorem writes_of_setIfInBounds {slot : Nat} {old new : Block} (hold : h.block? slot = some old)
    (hsettings : h'.settings = h.settings) (hregisters : h'.registers = h.registers)
    (hcollections : h'.collections = h.collections)
    (hslots : h'.slots = h.slots.setIfInBounds slot (some new)) : h.Writes slot new h' := by
  have hblock := block?_of_setIfInBounds (lt_size_of_block? hold) hslots
  refine ⟨hsettings, hregisters, hcollections, by simp [hslots], ?_, fun s hs => ?_⟩
  · rw [hblock, if_pos rfl]
  · rw [hblock, if_neg hs]

omit [Digest] in
/-- A block may be replaced by one with another extent, if the bytes come from the arena and
the loose ones. -/
theorem Consistent.write {loose loose' : Multiset Nat} (hc : h.Consistent loose) {slot : Nat}
    {old new : Block} (hold : h.block? slot = some old) (hproper : new.Proper) {arena : Arena}
    (htidy : arena.Tidy h.settings.heapSize) (haligned : ∀ e ∈ arena.extents, e.Aligned)
    (hbytes : new.header.extent.bytes + arena.bytes + loose' =
      old.header.extent.bytes + h.arena.bytes + loose) :
    ({ h with slots := h.slots.setIfInBounds slot (some new), arena } : Heap).Consistent
      loose' := by
  have hlt := lt_size_of_block? hold
  have hget := block?_eq_some_iff.mp hold
  refine ⟨hc.settings_ok, htidy, ?_, haligned, hc.freeSlots_nodup, ?_, ?_, ?_, ?_, hc.phase_eq,
    hc.markStack_eq⟩
  · have howned := ownedBytes_setIfInBounds hget (some new)
    rw [contentBytes_some, contentBytes_some] at howned
    dsimp only
    rw [← hc.tiles]
    refine add_right_cancel (b := old.header.extent.bytes) ?_
    calc ownedBytes (h.slots.setIfInBounds slot (some new)) + arena.bytes + loose' +
          old.header.extent.bytes
        = ownedBytes (h.slots.setIfInBounds slot (some new)) + old.header.extent.bytes +
            arena.bytes + loose' := by abel
      _ = ownedBytes h.slots + (new.header.extent.bytes + arena.bytes + loose') := by
            rw [howned]; abel
      _ = ownedBytes h.slots + h.arena.bytes + loose + old.header.extent.bytes := by
            rw [hbytes]; abel
  · intro s
    rw [hc.mem_freeSlots, Array.getElem?_setIfInBounds]
    by_cases hs : slot = s
    · subst hs
      rw [if_pos rfl, if_pos hlt, hget]
      simp
    · rw [if_neg hs]
  · have hcount := blockCount_setIfInBounds hget (some new)
    dsimp only
    rw [hc.liveObjects_eq]
    simpa using hcount.symm
  · dsimp only
    rw [Array.size_setIfInBounds]
    exact hc.slots_le
  · intro s block hb
    rw [block?_of_setIfInBounds hlt rfl] at hb
    split at hb
    · cases hb
      exact hproper
    · exact hc.proper s block hb

omit [Digest] in
/-- Blocks are 16 bytes at least, so that there are no more of them than that many bytes
allow. -/
theorem le_card_ownedBytes {slots : Array (Option Block)}
    (hproper : ∀ block, some block ∈ slots.toList → block.Proper) :
    16 * blockCount slots ≤ (ownedBytes slots).card := by
  rw [blockCount, ownedBytes]
  generalize slots.toList = contents at hproper ⊢
  induction contents with
  | nil => exact Nat.zero_le _
  | cons head rest ih =>
      have hrest := ih fun block hmem => hproper block (List.mem_cons_of_mem _ hmem)
      rw [List.map_cons, List.sum_cons, Multiset.card_add, List.countP_cons]
      cases head with
      | none => simpa using hrest
      | some block =>
          have hlen := (hproper block (List.mem_cons_self ..)).le_len
          simp only [contentBytes_some, Extent.card_bytes, Option.isSome_some, if_true]
          omega

omit [Digest] in
/-- A block that takes a free slot takes up the loose bytes. -/
theorem Consistent.fill {block : Block} (hc : h.Consistent block.header.extent.bytes)
    (hproper : block.Proper) {slot : Nat} {rest : List Nat} (hfree : h.freeSlots = slot :: rest) :
    ({ h with
        slots := h.slots.setIfInBounds slot (some block)
        freeSlots := rest
        liveObjects := h.liveObjects + 1 } : Heap).Consistent 0 := by
  have hget : h.slots[slot]? = some none :=
    (hc.mem_freeSlots slot).mp (hfree ▸ List.mem_cons_self ..)
  have hlt : slot < h.slots.size := (Array.getElem?_eq_some_iff.mp hget).1
  have hnodup := hc.freeSlots_nodup
  rw [hfree, List.nodup_cons] at hnodup
  refine ⟨hc.settings_ok, hc.tidy, ?_, hc.free_aligned, hnodup.2, ?_, ?_, ?_, ?_, hc.phase_eq,
    hc.markStack_eq⟩
  · have howned := ownedBytes_setIfInBounds hget (some block)
    rw [contentBytes_none, add_zero, contentBytes_some] at howned
    dsimp only
    rw [howned, ← hc.tiles, add_zero]
    abel
  · intro s
    have hmem := hc.mem_freeSlots s
    rw [hfree, List.mem_cons] at hmem
    rw [Array.getElem?_setIfInBounds]
    by_cases hs : slot = s
    · subst hs
      simp [hlt, hnodup.1]
    · rw [if_neg hs, ← hmem]
      simp [Ne.symm hs]
  · have hcount := blockCount_setIfInBounds hget (some block)
    dsimp only
    rw [hc.liveObjects_eq]
    simpa using hcount.symm
  · dsimp only
    rw [Array.size_setIfInBounds]
    exact hc.slots_le
  · intro s found hb
    rw [block?_of_setIfInBounds hlt rfl] at hb
    split at hb
    · cases hb
      exact hproper
    · exact hc.proper s found hb

omit [Digest] in
theorem block?_push {content : Option Block} (hslots : h'.slots = h.slots.push content) (s : Nat) :
    h'.block? s = if s = h.slots.size then content else h.block? s := by
  rw [block?, block?, hslots, Array.getElem?_push]
  split <;> rfl

omit [Digest] in
/-- A block that takes a new slot takes up the loose bytes, and the slot has a number of 32 bits
still. -/
theorem Consistent.append {block : Block} (hc : h.Consistent block.header.extent.bytes)
    (hproper : block.Proper) (hfree : h.freeSlots = []) :
    ({ h with
        slots := h.slots.push (some block)
        liveObjects := h.liveObjects + 1 } : Heap).Consistent 0 := by
  have hsome (s : Nat) (content : Option Block) (hs : h.slots[s]? = some content) :
      content.isSome = true := by
    cases content with
    | some => rfl
    | none =>
        have hmem := (hc.mem_freeSlots s).mpr hs
        rw [hfree] at hmem
        cases hmem
  refine ⟨hc.settings_ok, hc.tidy, ?_, hc.free_aligned, hc.freeSlots_nodup, ?_, ?_, ?_, ?_,
    hc.phase_eq, hc.markStack_eq⟩
  · dsimp only
    rw [ownedBytes_push, contentBytes_some, ← hc.tiles, add_zero]
    abel
  · intro s
    rw [hc.mem_freeSlots, Array.getElem?_push]
    split
    next hs =>
      subst hs
      simp
    next => rfl
  · dsimp only
    rw [blockCount_push, hc.liveObjects_eq]
    rfl
  · -- every slot holds a block, and each block has sixteen bytes or more of the arena
    have hall : blockCount h.slots = h.slots.size := by
      rw [blockCount, ← Array.length_toList, List.countP_eq_length]
      intro content hmem
      obtain ⟨i, hi⟩ := List.mem_iff_getElem?.mp hmem
      exact hsome i content (by rwa [Array.getElem?_toList] at hi)
    have howned : 16 * blockCount h.slots ≤ (ownedBytes h.slots).card := by
      refine le_card_ownedBytes fun found hmem => ?_
      obtain ⟨i, hi⟩ := List.mem_iff_getElem?.mp hmem
      rw [Array.getElem?_toList] at hi
      exact hc.proper i found (block?_eq_some_iff.mpr hi)
    have hcard := congrArg Multiset.card hc.tiles
    rw [Multiset.card_add, Multiset.card_add, Multiset.card_range, Extent.card_bytes] at hcard
    have hlen := hproper.le_len
    dsimp only
    rw [Array.size_push]
    omega
  · intro s found hb
    rw [block?_push rfl] at hb
    split at hb
    · cases hb
      exact hproper
    · exact hc.proper s found hb

/-- How a heap changes when a block goes into a free slot. -/
structure Installed (h : Heap) (block : Block) (slot : Nat) (h' : Heap) : Prop where
  writes : h.Writes slot block h'
  free : h.block? slot = none
  consistent : h'.Consistent 0

omit [Digest] in
/-- A block is installed in a free slot, or in a new one if none is free. -/
theorem install_spec {block : Block} (hc : h.Consistent block.header.extent.bytes)
    (hproper : block.Proper) :
    ∃ slot h', install block h = .ok (Value.ofSlot slot) h' ∧ h.Installed block slot h' := by
  cases hfree : h.freeSlots with
  | cons slot rest =>
      have hget : h.slots[slot]? = some none :=
        (hc.mem_freeSlots slot).mp (hfree ▸ List.mem_cons_self ..)
      have hlt : slot < h.slots.size := (Array.getElem?_eq_some_iff.mp hget).1
      have hfill := hc.fill hproper hfree
      refine ⟨slot, _, ?_, ⟨⟨?_, ?_, ?_, ?_, ?_, ?_⟩, ?_, hfill⟩⟩
      · simp only [install, modifyGet_apply, hfree]
      · rfl
      · rfl
      · rfl
      · simp
      · rw [block?_of_setIfInBounds hlt rfl, if_pos rfl]
      · intro s hs
        rw [block?_of_setIfInBounds hlt rfl, if_neg hs]
      · simp [block?, hget]
  | nil =>
      have happend := hc.append hproper hfree
      refine ⟨h.slots.size, _, ?_, ⟨⟨?_, ?_, ?_, ?_, ?_, ?_⟩, ?_, happend⟩⟩
      · simp only [install, modifyGet_apply, hfree]
      · rfl
      · rfl
      · rfl
      · simp
      · rw [block?_push rfl, if_pos rfl]
      · intro s hs
        rw [block?_push rfl, if_neg hs]
      · exact block?_eq_none_of_size_le (Nat.le_refl _)

end Heap

end ObjectHeap
