import ObjectHeap.Proofs.Holding
import ObjectHeap.Proofs.Tiling
import Mathlib.Data.Multiset.Count

/-! # The representation of a heap

How the parts of a heap fit together: the slots without a block are the free slots, each
listed once; the extents of the blocks and the free extents tile the arena; the size of
a block is that of its payload, and the payload fits the kind. Between the reservation
of an extent and its use the extent is *loose*: it belongs to neither side.
-/

namespace ObjectHeap

/-- Replacing one element of a list moves its weight out of a sum and the new one in. -/
theorem sum_map_set {α M : Type} [AddCommMonoid M] (weight : α → M) {items : List α} {i : Nat}
    {old : α} (h : items[i]? = some old) (new : α) :
    ((items.set i new).map weight).sum + weight old = (items.map weight).sum + weight new := by
  induction items generalizing i with
  | nil => simp at h
  | cons head rest ih =>
      cases i with
      | zero =>
          simp only [List.getElem?_cons_zero, Option.some.injEq] at h
          subst h
          simp only [List.set_cons_zero, List.map_cons, List.sum_cons]
          abel
      | succ i =>
          have hrest := ih (i := i) (by simpa using h)
          simp only [List.set_cons_succ, List.map_cons, List.sum_cons]
          rw [add_assoc, hrest, add_assoc]

/-- The bytes owned by what a slot holds. -/
def contentBytes (content : Option Block) : Multiset Nat :=
  content.elim 0 fun block => block.header.extent.bytes

@[simp] theorem contentBytes_none : contentBytes none = 0 := rfl

@[simp] theorem contentBytes_some (block : Block) :
    contentBytes (some block) = block.header.extent.bytes := rfl

/-- The bytes owned by the blocks in some slots. -/
def ownedBytes (slots : Array (Option Block)) : Multiset Nat :=
  (slots.toList.map contentBytes).sum

def blockCount (slots : Array (Option Block)) : Nat := slots.toList.countP Option.isSome

/-- A slot that gets another content gains the bytes of the new and loses those of the old. -/
theorem ownedBytes_setIfInBounds {slots : Array (Option Block)} {slot : Nat}
    {old : Option Block} (h : slots[slot]? = some old) (new : Option Block) :
    ownedBytes (slots.setIfInBounds slot new) + contentBytes old =
      ownedBytes slots + contentBytes new := by
  unfold ownedBytes
  rw [Array.toList_setIfInBounds]
  exact sum_map_set contentBytes (by simpa using h) new

theorem ownedBytes_push (slots : Array (Option Block)) (content : Option Block) :
    ownedBytes (slots.push content) = ownedBytes slots + contentBytes content := by
  simp [ownedBytes]

/-- No block is larger than all blocks together. -/
theorem le_ownedBytes {slots : Array (Option Block)} {slot : Nat} {block : Block}
    (h : slots[slot]? = some (some block)) : block.header.extent.bytes ≤ ownedBytes slots := by
  have hsum := ownedBytes_setIfInBounds h none
  rw [contentBytes_none, add_zero, contentBytes_some] at hsum
  rw [← hsum]
  exact Multiset.le_add_left _ _

theorem blockCount_eq_sum (slots : Array (Option Block)) :
    blockCount slots = (slots.toList.map fun content => if content.isSome then 1 else 0).sum := by
  unfold blockCount
  induction slots.toList with
  | nil => rfl
  | cons head rest ih =>
      rw [List.countP_cons, ih, List.map_cons, List.sum_cons, Nat.add_comm]

/-- A slot that gets another content counts for the new and no longer for the old. -/
theorem blockCount_setIfInBounds {slots : Array (Option Block)} {slot : Nat}
    {old : Option Block} (h : slots[slot]? = some old) (new : Option Block) :
    blockCount (slots.setIfInBounds slot new) + (if old.isSome then 1 else 0) =
      blockCount slots + if new.isSome then 1 else 0 := by
  rw [blockCount_eq_sum, blockCount_eq_sum, Array.toList_setIfInBounds]
  exact sum_map_set (fun content : Option Block => if content.isSome then 1 else 0)
    (by simpa using h) new

theorem blockCount_push (slots : Array (Option Block)) (content : Option Block) :
    blockCount (slots.push content) = blockCount slots + if content.isSome then 1 else 0 := by
  simp [blockCount, List.countP_append, List.countP_cons]

/-- A block whose header agrees with its payload, outside of a collection. -/
structure Block.Proper (block : Block) : Prop where
  fits : block.body.fits block.header.kind = true
  size_eq : block.header.size = block.body.blockSize
  aligned : block.header.extent.Aligned
  white : block.header.color = .white

/-- Blocks are sized in whole words of 8 bytes. -/
theorem Body.eight_dvd_blockSize (body : Body) : 8 ∣ body.blockSize := by
  simp [blockSize, Layout.block, Layout.roundUp]

/-- No block is smaller than its header and one word. -/
theorem Body.le_blockSize (body : Body) : 16 ≤ body.blockSize := by
  have hpayload : 8 ≤ body.payloadSize := by
    cases body <;> simp [payloadSize, Layout.countsSize, Layout.frameSize]
    omega
  simp only [blockSize, Layout.block, Layout.roundUp, Layout.headerSize]
  omega

/-- A proper block has room for a header and a word. -/
theorem Block.Proper.le_len {block : Block} (h : block.Proper) : 16 ≤ block.header.extent.len := by
  have := h.size_eq
  rw [Header.size] at this
  rw [this]
  exact block.body.le_blockSize

namespace Heap

/-- The representation invariant, with some bytes of the arena loose. -/
structure Consistent (h : Heap) (loose : Multiset Nat) : Prop where
  settings_ok : h.settings.flaw? = none
  tidy : h.arena.Tidy h.settings.heapSize
  tiles : ownedBytes h.slots + h.arena.bytes + loose = Multiset.range h.settings.heapSize
  free_aligned : ∀ e ∈ h.arena.extents, e.Aligned
  freeSlots_nodup : h.freeSlots.Nodup
  mem_freeSlots : ∀ slot, slot ∈ h.freeSlots ↔ h.slots[slot]? = some none
  liveObjects_eq : h.liveObjects = blockCount h.slots
  slots_le : 16 * h.slots.size ≤ h.settings.heapSize
  proper : ∀ slot block, h.block? slot = some block → block.Proper
  phase_eq : h.phase = .idle
  markStack_eq : h.markStack = #[]

/-- Settings without a flaw give a heap of whole words whose offsets fit in 32 bits. -/
theorem heapSize_of_flaw? {s : Settings} (h : s.flaw? = none) :
    0 < s.heapSize ∧ s.heapSize % 8 = 0 ∧ s.heapSize < span32 := by
  unfold Settings.flaw? at h
  split at h
  next => cases h
  next hzero =>
    split at h
    next => cases h
    next halign =>
      split at h
      next => cases h
      next hwide =>
        unfold span32
        omega

theorem Consistent.heapSize_lt {h : Heap} {loose : Multiset Nat} (hc : h.Consistent loose) :
    h.settings.heapSize < span32 := (heapSize_of_flaw? hc.settings_ok).2.2

/-- There are fewer slots than a slot number can name. -/
theorem Consistent.size_lt {h : Heap} {loose : Multiset Nat} (hc : h.Consistent loose) :
    h.slots.size < span32 := by
  have hle := hc.slots_le
  have hlt := hc.heapSize_lt
  omega

/-! ## In terms of blocks and extents -/

theorem map_snd_blocks (h : Heap) : h.blocks.map Prod.snd = h.slots.toList.filterMap id := by
  have hzip (contents : List (Option Block)) (first : Nat) :
      ((contents.zipIdx first).filterMap fun entry => entry.1.map (entry.2, ·)).map Prod.snd =
        contents.filterMap id := by
    induction contents generalizing first with
    | nil => rfl
    | cons content rest ih => cases content <;> simp [ih]
  exact hzip h.slots.toList 0

theorem blockCount_eq_length_blocks (h : Heap) : blockCount h.slots = h.blocks.length := by
  rw [← List.length_map (f := Prod.snd), map_snd_blocks, blockCount]
  induction h.slots.toList with
  | nil => rfl
  | cons content rest ih => cases content <;> simp [ih]

/-- The extents of the blocks, in slot order, and then the free ones. -/
def extents (h : Heap) : List Extent := (h.blocks.map (·.2.header.extent)) ++ h.arena.extents

theorem extents_eq (h : Heap) :
    h.extents = (h.slots.toList.filterMap id).map (·.header.extent) ++ h.arena.extents := by
  rw [extents, ← map_snd_blocks, List.map_map]
  rfl

/-- The extents of a heap are those of its blocks and those that are free. -/
theorem mem_extents {h : Heap} {e : Extent} :
    e ∈ h.extents ↔ (∃ slot block, h.block? slot = some block ∧ block.header.extent = e) ∨
      e ∈ h.arena.extents := by
  simp only [extents_eq, List.mem_append, List.mem_map, List.mem_filterMap, id_eq,
    exists_eq_right, Array.mem_toList_iff, Array.mem_iff_getElem?, block?_eq_some_iff]
  grind

/-- The bytes of a heap are owned by blocks or in the arena. -/
theorem bytesOf_extents (h : Heap) : bytesOf h.extents = ownedBytes h.slots + h.arena.bytes := by
  rw [extents_eq, bytesOf_append, Arena.bytes, ownedBytes]
  congr 1
  induction h.slots.toList with
  | nil => rfl
  | cons content rest ih => cases content <;> simpa using ih

/-- The representation invariant between operations. Headers and payloads share a table, so
there are as many of the ones as of the others. -/
structure WellFormed (h : Heap) : Prop where
  mem_freeSlots : ∀ slot, slot ∈ h.freeSlots ↔ slot < h.slots.size ∧ h.block? slot = none
  freeSlots_nodup : h.freeSlots.Nodup
  liveObjects_eq : h.liveObjects = h.blocks.length
  disjoint : h.extents.Pairwise fun a b => a.stop ≤ b.offset ∨ b.stop ≤ a.offset
  covers : ∀ byte, (∃ e ∈ h.extents, e.offset ≤ byte ∧ byte < e.stop) ↔
    byte < h.settings.heapSize
  aligned : ∀ e ∈ h.extents, 8 ∣ e.offset ∧ 8 ∣ e.len
  size_eq : ∀ slot block, h.block? slot = some block → block.header.size = block.body.blockSize
  fits : ∀ slot block, h.block? slot = some block → block.body.fits block.header.kind = true
  white : ∀ slot block, h.block? slot = some block → block.header.color = .white
  markStack_eq : h.markStack = #[]

/-- A consistent heap with no bytes set aside is well-formed. -/
theorem Consistent.wellFormed {h : Heap} (hc : h.Consistent 0) : h.WellFormed where
  mem_freeSlots slot := by
    rw [hc.mem_freeSlots, block?]
    by_cases hslot : slot < h.slots.size
    · rw [Array.getElem?_eq_getElem hslot]
      cases h.slots[slot] <;> simp [hslot]
    · simp [hslot]
  freeSlots_nodup := hc.freeSlots_nodup
  liveObjects_eq := hc.liveObjects_eq.trans (blockCount_eq_length_blocks h)
  disjoint := by
    have htiles := hc.tiles
    rw [add_zero, ← bytesOf_extents] at htiles
    refine pairwise_of_nodup_bytesOf (htiles ▸ Multiset.nodup_range _) fun e he => ?_
    rcases mem_extents.mp he with ⟨slot, block, hblock, rfl⟩ | hfree
    · exact Nat.lt_of_lt_of_le (by decide) (hc.proper slot block hblock).le_len
    · exact hc.tidy.positive e hfree
  covers byte := by
    have htiles := hc.tiles
    rw [add_zero, ← bytesOf_extents] at htiles
    rw [← Multiset.mem_range, ← htiles, mem_bytesOf]
    simp only [Extent.mem_bytes]
  aligned e he := by
    rcases mem_extents.mp he with ⟨slot, block, hblock, rfl⟩ | hfree
    · exact (hc.proper slot block hblock).aligned
    · exact hc.free_aligned e hfree
  size_eq slot block hblock := (hc.proper slot block hblock).size_eq
  fits slot block hblock := (hc.proper slot block hblock).fits
  white slot block hblock := (hc.proper slot block hblock).white
  markStack_eq := hc.markStack_eq

end Heap

end ObjectHeap
