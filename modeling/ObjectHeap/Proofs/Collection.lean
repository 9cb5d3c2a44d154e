import ObjectHeap.Heap.Collect
import ObjectHeap.Proofs.Marking
import ObjectHeap.Proofs.Representation

/-! # Collection

A collection of a consistent heap without dangling references ends without a fault. It
keeps exactly the blocks that are held, as they were, and gives the slots and the bytes
of all others back.
-/

namespace ObjectHeap

namespace Heap

/-- Every reference that a block makes is to a block. -/
def EdgesLive (h : Heap) : Prop :=
  ∀ slot block, h.block? slot = some block → ∀ v ∈ block.body.edges, h.contains v = true

theorem contains_iff {h : Heap} {v : Value} :
    h.contains v = true ↔ ∀ slot, v.slot? = some slot → ∃ block, h.block? slot = some block := by
  unfold contains
  cases v.slot? with
  | none => simp
  | some slot => simp [Option.isSome_iff_exists]

theorem occupied_iff {h : Heap} {slot : Nat} :
    Occupied h.slots slot ↔ ∃ block, h.block? slot = some block := by
  simp only [Occupied, block?_eq_some_iff]

end Heap

/-- The slots that references lead to from a list of values, whether or not they hold a
block. -/
inductive Spread (slots : Array (Option Block)) (starts : List Value) : Nat → Prop
  | start {v : Value} {slot : Nat} : v ∈ starts → v.slot? = some slot → Spread slots starts slot
  | edge {slot next : Nat} {block : Block} {v : Value} : Spread slots starts slot →
      slots[slot]? = some (some block) → v ∈ block.body.edges → v.slot? = some next →
      Spread slots starts next

theorem edgeClosed_spread (slots : Array (Option Block)) (starts : List Value) :
    EdgeClosed slots (Spread slots starts) :=
  fun _ _ hslot hblock _ hv _ hnext => hslot.edge hblock hv hnext

namespace Marker

theorem mem_pinned {slots : Array (Option Block)} {v : Value} :
    v ∈ pinned slots ↔ ∃ slot block, slots[slot]? = some (some block) ∧
      block.header.pinned = true ∧ v = Value.ofSlot slot := by
  simp only [pinned, List.mem_filterMap, Prod.exists, List.mem_zipIdx_iff_getElem?,
    Array.getElem?_toList, Option.bind_eq_some_iff, Option.ite_none_right_eq_some,
    Option.some.injEq]
  constructor
  · rintro ⟨content, slot, hslot, block, rfl, hpinned, rfl⟩
    exact ⟨slot, block, hslot, hpinned, rfl⟩
  · rintro ⟨slot, block, hslot, hpinned, rfl⟩
    exact ⟨some block, slot, hslot, block, rfl, hpinned, rfl⟩

/-- Marking does not change which blocks are pinned. -/
theorem Tricolor.mem_pinned {base : Array (Option Block)} {held pending : Nat → Prop} {m : Marker}
    (h : m.Tricolor base held pending) {v : Value} :
    v ∈ pinned m.slots ↔ v ∈ pinned base := by
  rw [Marker.mem_pinned, Marker.mem_pinned]
  constructor
  · rintro ⟨slot, block, hblock, hpinned, rfl⟩
    exact ⟨slot, _, h.base_getElem? hblock, hpinned, rfl⟩
  · rintro ⟨slot, block, hblock, hpinned, rfl⟩
    obtain ⟨found, hfound⟩ := h.exists_getElem? ⟨block, hblock⟩
    have heq := (h.base_getElem? hfound).symm.trans hblock
    simp only [Option.some.injEq] at heq
    rw [← heq] at hpinned
    exact ⟨slot, found, hfound, hpinned, rfl⟩

end Marker

namespace Heap

/-- What marking leaves: the blocks of a set of slots are black, the others white, and the
black ones are counted. -/
structure Marked (h : Heap) (held : Nat → Prop) (m : Marker) : Prop where
  stack_eq : m.stack = #[]
  recolors : m.slots.map Marker.blanched = h.slots
  occupied : ∀ slot, held slot → Occupied h.slots slot
  black : ∀ slot block, m.slots[slot]? = some (some block) → held slot →
    block.header.color = .black
  white : ∀ slot block, m.slots[slot]? = some (some block) → ¬ held slot →
    block.header.color = .white
  marked_eq : m.marked = Marker.reachedCount m.slots

/-- No block is marked. -/
def Unmarked (h : Heap) : Prop :=
  ∀ slot block, h.block? slot = some block → block.header.color = .white

theorem Consistent.unmarked {h : Heap} {loose : Multiset Nat} (hc : h.Consistent loose) :
    h.Unmarked :=
  fun slot block hblock => (hc.proper slot block hblock).white

/-- Before marking, no block is reached. -/
theorem Unmarked.tricolor {h : Heap} (hu : h.Unmarked) {held : Nat → Prop} {m : Marker}
    (hslots : m.slots = h.slots) (hstack : m.stack = #[]) (hmarked : m.marked = 0) :
    m.Tricolor h.slots held (fun _ => False) ∧ m.Shaded := by
  have hwhite {slot : Nat} {block : Block} (hblock : m.slots[slot]? = some (some block)) :
      block.header.color = .white :=
    hu slot block (block?_eq_some_iff.mpr (hslots ▸ hblock))
  refine ⟨⟨?_, ?_, ?_, ?_, ?_⟩, ?_⟩
  · rw [← hslots]
    apply Array.ext_getElem?
    intro i
    rw [Array.getElem?_map]
    rcases hi : m.slots[i]? with _ | _ | block
    · rfl
    · rfl
    · simp [Marker.blanched, Marker.painted_eq_self (hwhite hi)]
  · intro slot hslot
    rw [hstack] at hslot
    simp at hslot
  · intro slot hgrey
    obtain ⟨block, hblock, hcolor⟩ := Marker.color?_eq_some.mp hgrey
    rw [hwhite hblock] at hcolor
    cases hcolor
  · rintro slot ⟨block, hblock, hcolor⟩
    exact absurd (hwhite hblock) hcolor
  · rw [hmarked, Marker.reachedCount, eq_comm, List.countP_eq_zero]
    intro content hcontent
    obtain ⟨slot, hslot⟩ := List.mem_iff_getElem?.mp hcontent
    cases content with
    | none => simp
    | some block => simp [hwhite (by simpa using hslot)]
  · intro slot block hblock hcolor
    rw [hwhite hblock] at hcolor
    cases hcolor

/-- A drained table has reached all that its starts lead to, once it has reached the starts. -/
theorem reached_of_spread {base : Array (Option Block)} {starts : List Value}
    {held : Nat → Prop} {m : Marker} (hd : m.Drained base held)
    (hstarts : ∀ v ∈ starts, ∀ slot, v.slot? = some slot → m.Reached slot) {slot : Nat}
    (hslot : Spread base starts slot) : m.Reached slot := by
  induction hslot with
  | start hv hslot => exact hstarts _ hv _ hslot
  | @edge slot next block v _ hblock hv hnext ih =>
      obtain ⟨found, hfound⟩ := hd.tricolor.exists_getElem? ⟨block, hblock⟩
      have heq := (hd.tricolor.base_getElem? hfound).symm.trans hblock
      simp only [Option.some.injEq] at heq
      have hbody := congrArg Block.body heq
      rw [Marker.painted_body] at hbody
      exact hd.shaded slot found hfound (hd.black_of_reached hfound ih) v (hbody ▸ hv) next hnext

/-- The values that a collection starts from, in the order in which they are marked. -/
def wards (h : Heap) (roots awaited : List Value) : List Value :=
  roots ++ (h.registers.toList ++ awaited ++ Marker.pinned h.slots)

/-- How marking starts: with no block reached. -/
def unmarkedStart (h : Heap) : Marker :=
  { slots := h.slots, stack := #[], limit := h.settings.markStackSize, overflowed := false,
    marked := 0, rescans := 0 }

/-- With an empty stack, marking is two rounds of shading and draining. -/
theorem mark_eq {h : Heap} (hstack : h.markStack = #[]) (roots awaited : List Value) :
    h.mark roots awaited = (do
      let rooted ← (← h.unmarkedStart.shadeAll roots).drain
      let held ← rooted.shadeAll (h.registers.toList ++ awaited ++ Marker.pinned rooted.slots)
      held.drain) := by
  rw [mark, hstack]
  rfl

/-- Marking finds exactly what its starts lead to, or stops at a reference to no block. -/
theorem mark_marks {h : Heap} (hu : h.Unmarked) (hstack : h.markStack = #[])
    (roots awaited : List Value) :
    Marker.Marks h.slots (Spread h.slots (h.wards roots awaited)) (h.mark roots awaited)
      (h.Marked (Spread h.slots (h.wards roots awaited))) := by
  let held := Spread h.slots (h.wards roots awaited)
  have hclosed : EdgeClosed h.slots held := edgeClosed_spread h.slots _
  obtain ⟨hstart, hshaded⟩ : h.unmarkedStart.Tricolor h.slots held (fun _ => False) ∧
      h.unmarkedStart.Shaded := hu.tricolor rfl rfl rfl
  rw [mark_eq hstack]
  -- the roots first
  apply (Marker.shadeAll_spec hstart fun v hv slot hslot =>
    .start (List.mem_append_left _ hv) hslot).bind
  rintro rooted - ⟨htri, hshades⟩
  apply (Marker.drain_spec hclosed rooted htri (hshades.shaded hstart htri hshaded)).bind
  rintro first - ⟨hdrained, hdark⟩
  -- then everything else, where marking has not changed which blocks are pinned
  have hrest : ∀ v, v ∈ h.registers.toList ++ awaited ++ Marker.pinned first.slots ↔
      v ∈ h.registers.toList ++ awaited ++ Marker.pinned h.slots := by
    intro v
    simp only [List.mem_append, hdrained.tricolor.mem_pinned]
  apply (Marker.shadeAll_spec hdrained.tricolor fun v hv slot hslot =>
    .start (List.mem_append_right _ ((hrest v).mp hv)) hslot).bind
  rintro second - ⟨htri', hshades'⟩
  apply (Marker.drain_spec hclosed second htri'
    (hshades'.shaded hdrained.tricolor htri' hdrained.shaded)).mono
  rintro m - ⟨hdrained', hdark'⟩
  have hreached : ∀ slot, held slot → m.Reached slot := by
    intro slot hslot
    apply reached_of_spread hdrained' ?_ hslot
    intro v hv slot hslot
    rcases List.mem_append.mp hv with hv | hv
    · exact hdark'.reached _ (hshades'.darkens.reached _ (hdark.reached _
        (hshades.reached v hv slot hslot)))
    · exact hdark'.reached _ (hshades'.reached v ((hrest v).mpr hv) slot hslot)
  refine ⟨hdrained'.stack_eq, hdrained'.tricolor.recolors, ?_, ?_, ?_,
    hdrained'.tricolor.marked_eq⟩
  · intro slot hslot
    obtain ⟨block, hblock, _⟩ := hreached slot hslot
    exact ⟨_, hdrained'.tricolor.base_getElem? hblock⟩
  · intro slot block hblock hslot
    exact hdrained'.black_of_reached hblock (hreached slot hslot)
  · intro slot block hblock hslot
    by_contra hcolor
    exact hslot (hdrained'.tricolor.sound slot ⟨block, hblock, hcolor⟩)

/-- What a collection starts from leads to exactly the held slots. -/
theorem spread_wards_iff {h : Heap} (hsize : h.slots.size < span32) {roots awaited : List Value}
    {slot : Nat} :
    Spread h.slots (h.wards roots awaited) slot ↔ h.Held (roots ++ awaited) slot := by
  constructor
  · intro hslot
    induction hslot with
    | @start v slot hv hslot =>
        simp only [wards, List.mem_append, Array.mem_toList_iff] at hv
        rcases hv with hv | (hv | hv) | hv
        · exact .start (List.mem_append_left _ hv) hslot
        · exact .register hv hslot
        · exact .start (List.mem_append_right _ hv) hslot
        · obtain ⟨index, block, hblock, hpinned, rfl⟩ := Marker.mem_pinned.mp hv
          have hlt := Nat.lt_trans (Array.getElem?_eq_some_iff.mp hblock).1 hsize
          rw [Value.slot?_ofSlot hlt] at hslot
          cases hslot
          exact .pinned (block?_eq_some_iff.mpr hblock) hpinned
    | edge _ hblock hv hnext ih => exact ih.edge (block?_eq_some_iff.mpr hblock) hv hnext
  · intro hslot
    induction hslot with
    | @start v slot hv hslot =>
        apply Spread.start (v := v) ?_ hslot
        rcases List.mem_append.mp hv with hv | hv <;> simp [wards, hv]
    | register hv hslot => exact .start (by simp [wards, hv]) hslot
    | @pinned slot block hblock hpinned =>
        have hlt := Nat.lt_trans (lt_size_of_block? hblock) hsize
        have hmem := Marker.mem_pinned.mpr ⟨slot, block, block?_eq_some_iff.mp hblock, hpinned, rfl⟩
        exact .start (by simp [wards, hmem]) (Value.slot?_ofSlot hlt)
    | edge _ hblock hv hnext ih => exact ih.edge (block?_eq_some_iff.mp hblock) hv hnext

/-- Where no reference dangles, every held slot has a block. -/
theorem occupied_of_held {h : Heap} {starts : List Value} (hlive : h.EdgesLive)
    (hregisters : ∀ v ∈ h.registers, h.contains v = true)
    (hstarts : ∀ v ∈ starts, h.contains v = true) {slot : Nat} (hslot : h.Held starts slot) :
    Occupied h.slots slot := by
  rw [occupied_iff]
  cases hslot with
  | start hv hslot => exact contains_iff.mp (hstarts _ hv) slot hslot
  | register hv hslot => exact contains_iff.mp (hregisters _ hv) slot hslot
  | pinned hblock _ => exact ⟨_, hblock⟩
  | edge _ hblock hv hnext => exact contains_iff.mp (hlive _ _ hblock _ hv) slot hnext

/-- Marking ends without a fault and finds exactly the held blocks. -/
theorem mark_spec {h : Heap} {loose : Multiset Nat} {roots awaited : List Value}
    (hc : h.Consistent loose) (hlive : h.EdgesLive)
    (hregisters : ∀ v ∈ h.registers, h.contains v = true)
    (hroots : ∀ v ∈ roots, h.contains v = true)
    (hawaited : ∀ v ∈ awaited, h.contains v = true) :
    ∃ m, h.mark roots awaited = .ok m ∧ h.Marked (h.Held (roots ++ awaited)) m := by
  have hmarks := mark_marks hc.unmarked hc.markStack_eq roots awaited
  have hheld : Spread h.slots (h.wards roots awaited) = h.Held (roots ++ awaited) :=
    funext fun _ => propext (spread_wards_iff hc.size_lt)
  rw [hheld] at hmarks
  apply hmarks.exists_ok
  intro slot hslot
  apply occupied_of_held hlive hregisters ?_ hslot
  intro v hv
  exact (List.mem_append.mp hv).elim (hroots v) (hawaited v)

end Heap

/-! ## Sweeping -/

namespace Sweep

/-- What a sweep makes of the content of a slot. -/
def survivor (content : Option Block) : Option Block :=
  content.bind fun block =>
    if block.header.color = .black then some (Marker.painted block .white) else none

/-- The state of a sweep that has come to a slot. -/
structure Swept (marked : Array (Option Block)) (size count start : Nat) (s : Sweep) : Prop where
  size_eq : s.slots.size = marked.size
  before : ∀ i, i < start → s.slots[i]? = marked[i]?.map survivor
  after : ∀ i, start ≤ i → s.slots[i]? = marked[i]?
  tidy : s.arena.Tidy size
  tiles : ownedBytes s.slots + s.arena.bytes = Multiset.range size
  free_aligned : ∀ e ∈ s.arena.extents, e.Aligned
  freeSlots_nodup : s.freeSlots.Nodup
  mem_freeSlots : ∀ slot, slot ∈ s.freeSlots ↔ s.slots[slot]? = some none
  count_eq : blockCount s.slots + s.freedObjects = count

/-- A finished sweep has been to every slot. -/
theorem Swept.slots_eq {marked : Array (Option Block)} {size count : Nat} {s : Sweep}
    (h : s.Swept marked size count marked.size) : s.slots = marked.map survivor := by
  apply Array.ext_getElem?
  intro i
  rw [Array.getElem?_map]
  by_cases hlt : i < marked.size
  · exact h.before i hlt
  · rw [h.after i (by omega), Array.getElem?_eq_none (by omega)]
    rfl

/-- The extent of a block lies in the arena, apart from the free extents. -/
theorem extent_apart {slots : Array (Option Block)} {slot size : Nat} {block : Block}
    {free : Multiset Nat} (htiles : ownedBytes slots + free = Multiset.range size)
    (hblock : slots[slot]? = some (some block)) (hpos : 0 < block.header.extent.len) :
    block.header.extent.stop ≤ size ∧ Disjoint block.header.extent.bytes free := by
  have hle := le_ownedBytes hblock
  have hnodup : (ownedBytes slots + free).Nodup := by
    rw [htiles]
    exact Multiset.nodup_range size
  refine ⟨?_, ?_⟩
  · have hlast : block.header.extent.stop - 1 ∈ block.header.extent.bytes := by
      rw [Extent.mem_bytes]
      unfold Extent.stop
      omega
    have hmem : block.header.extent.stop - 1 ∈ Multiset.range size := by
      rw [← htiles]
      exact Multiset.mem_add.mpr (Or.inl (Multiset.mem_of_le hle hlast))
    rw [Multiset.mem_range] at hmem
    omega
  · exact ((Multiset.nodup_add.mp hnodup).2.2).mono_left hle

section Visit

variable {marked : Array (Option Block)} {size count slot : Nat} {s : Sweep} {block : Block}

/-- The slots up to one that is visited hold what a sweep leaves, and those past it are as they
were. -/
theorem Swept.slots_visited (h : s.Swept marked size count slot)
    (hblock : marked[slot]? = some (some block)) {new : Option Block}
    (hnew : survivor (some block) = new) :
    (∀ i, i < slot + 1 → (s.slots.setIfInBounds slot new)[i]? = marked[i]?.map survivor) ∧
      ∀ i, slot + 1 ≤ i → (s.slots.setIfInBounds slot new)[i]? = marked[i]? := by
  have hget := Marker.getElem?_setIfInBounds_of_some ((h.after slot (Nat.le_refl _)).trans hblock)
  refine ⟨fun i hi => ?_, fun i hi => ?_⟩
  · rw [hget]
    split
    next heq => rw [heq, hblock, Option.map_some, hnew]
    next heq => exact h.before i (by omega)
  · rw [hget, if_neg (by omega)]
    exact h.after i (by omega)

/-- Clearing the mark of a block moves no bytes. -/
theorem Swept.keep (h : s.Swept marked size count slot) (hblock : marked[slot]? = some (some block))
    (hblack : block.header.color = .black) :
    Swept marked size count (slot + 1)
      { s with slots := s.slots.setIfInBounds slot (some (Marker.painted block .white)) } := by
  have hsame := (h.after slot (Nat.le_refl _)).trans hblock
  have hnew : survivor (some block) = some (Marker.painted block .white) := by
    simp [survivor, hblack]
  obtain ⟨hbefore, hafter⟩ := h.slots_visited hblock hnew
  have hbytes := ownedBytes_setIfInBounds hsame (some (Marker.painted block .white))
  have hcount := blockCount_setIfInBounds hsame (some (Marker.painted block .white))
  refine { h with size_eq := ?_, before := hbefore, after := hafter, tiles := ?_,
                  mem_freeSlots := ?_, count_eq := ?_ }
  · simpa using h.size_eq
  · rw [show ownedBytes _ = ownedBytes s.slots from add_right_cancel hbytes]
    exact h.tiles
  · intro i
    rw [h.mem_freeSlots, Marker.getElem?_setIfInBounds_of_some hsame]
    split
    next heq => simp [heq, hsame]
    next => rfl
  · have := h.count_eq
    simp only [Option.isSome_some, ↓reduceIte] at hcount
    dsimp only
    omega

/-- The slot and the extent of a freed block become free. -/
theorem Swept.free (h : s.Swept marked size count slot) (hblock : marked[slot]? = some (some block))
    (hwhite : block.header.color = .white) (haligned : block.header.extent.Aligned) {arena : Arena}
    (hreleases : s.arena.Releases size block.header.extent arena) :
    Swept marked size count (slot + 1)
      { slots := s.slots.setIfInBounds slot none
        freeSlots := slot :: s.freeSlots
        arena
        freedObjects := s.freedObjects + 1
        freedBytes := s.freedBytes + block.header.size } := by
  have hsame := (h.after slot (Nat.le_refl _)).trans hblock
  have hget := Marker.getElem?_setIfInBounds_of_some hsame
  have hnew : survivor (some block) = none := by simp [survivor, hwhite]
  obtain ⟨hbefore, hafter⟩ := h.slots_visited hblock hnew
  have hbytes := ownedBytes_setIfInBounds hsame none
  have hcount := blockCount_setIfInBounds hsame none
  refine ⟨?_, hbefore, hafter, hreleases.tidy, ?_, hreleases.aligned haligned h.free_aligned,
    ?_, ?_, ?_⟩
  · simpa using h.size_eq
  · rw [contentBytes_some, contentBytes_none, add_zero] at hbytes
    dsimp only
    rw [hreleases.bytes_eq, ← add_assoc, hbytes]
    exact h.tiles
  · refine List.nodup_cons.mpr ⟨?_, h.freeSlots_nodup⟩
    rw [h.mem_freeSlots, hsame]
    simp
  · intro i
    rw [List.mem_cons, h.mem_freeSlots, hget]
    split
    next heq => simp [heq]
    next heq => simp [heq]
  · have := h.count_eq
    simp only [Option.isSome_some, Option.isSome_none, ↓reduceIte, Bool.false_eq_true,
      Nat.add_zero] at hcount
    dsimp only
    omega

/-- A visit gives an unmarked block back and clears the mark of a marked one. -/
theorem visit_spec (hsize : size < span32) (h : s.Swept marked size count slot)
    (hslot : slot < marked.size)
    (hmarked : ∀ block, marked[slot]? = some (some block) →
      block.header.size = block.body.blockSize ∧ block.header.extent.Aligned ∧
        block.header.color ≠ .grey) :
    ∃ s', s.visit slot = .ok s' ∧ s'.Swept marked size count (slot + 1) := by
  obtain ⟨content, hcontent⟩ : ∃ content, marked[slot]? = some content :=
    ⟨_, Array.getElem?_eq_getElem hslot⟩
  have hsame := (h.after slot (Nat.le_refl _)).trans hcontent
  cases content with
  | none =>
      refine ⟨s, by simp [visit, hsame, pure, Except.pure], { h with before := ?_, after := ?_ }⟩
      · intro i hi
        by_cases heq : i = slot
        · rw [heq, hsame, hcontent]
          rfl
        · exact h.before i (by omega)
      · exact fun i hi => h.after i (by omega)
  | some block =>
      obtain ⟨hblockSize, haligned, hcolor⟩ := hmarked block hcontent
      cases hc : block.header.color with
      | grey => exact absurd hc hcolor
      | black =>
          refine ⟨_, ?_, h.keep hcontent hc⟩
          simp [visit, hsame, hc, pure, Except.pure]
      | white =>
          have hlen : 16 ≤ block.header.extent.len := by
            rw [Header.size] at hblockSize
            rw [hblockSize]
            exact block.body.le_blockSize
          obtain ⟨hstop, hdisjoint⟩ := extent_apart h.tiles hsame (by omega)
          obtain ⟨arena, hrelease, hreleases⟩ :=
            Arena.release_spec h.tidy hsize (by omega) hstop hdisjoint
          refine ⟨_, ?_, h.free hcontent hc haligned hreleases⟩
          simp [visit, hsame, hc, require, hblockSize, hrelease, bind, Except.bind, pure,
            Except.pure]

end Visit

theorem visits_spec {marked : Array (Option Block)} {size count : Nat} (hsize : size < span32)
    (hmarked : ∀ (slot : Nat) (block : Block), marked[slot]? = some (some block) →
      block.header.size = block.body.blockSize ∧ block.header.extent.Aligned ∧
        block.header.color ≠ .grey)
    (steps start : Nat) (s : Sweep) (h : s.Swept marked size count start)
    (hend : start + steps = marked.size) :
    ∃ s', (List.range' start steps).foldlM visit s = .ok s' ∧
      s'.Swept marked size count marked.size := by
  induction steps generalizing start s with
  | zero => exact ⟨s, rfl, by rwa [← hend]⟩
  | succ steps ih =>
      obtain ⟨next, hnext, hswept⟩ := visit_spec hsize h (by omega) (hmarked start)
      obtain ⟨s', heq, hs'⟩ := ih (start + 1) next hswept (by omega)
      refine ⟨s', ?_, hs'⟩
      rw [List.range'_succ, List.foldlM_cons, hnext]
      exact heq

end Sweep

namespace Heap

/-- What a collection does: the held blocks stay as they are and all others are gone. -/
structure Collected (h : Heap) (starts : List Value) (h' : Heap) : Prop where
  settings_eq : h'.settings = h.settings
  registers_eq : h'.registers = h.registers
  size_eq : h'.slots.size = h.slots.size
  collections_eq : h'.collections = h.collections + 1
  block?_iff : ∀ slot block, h'.block? slot = some block ↔
    h.block? slot = some block ∧ h.Held starts slot
  consistent : h'.Consistent 0

/-- A sweep of marked slots keeps the black blocks, and clears their marks. -/
theorem sweep_spec {h : Heap} {starts : List Value} {m : Marker} (hc : h.Consistent 0)
    (hm : h.Marked (h.Held starts) m) :
    ∃ s, h.sweep m.slots = .ok s ∧
      s.Swept m.slots h.settings.heapSize h.liveObjects m.slots.size := by
  have hbase : ∀ {slot : Nat} {block : Block}, m.slots[slot]? = some (some block) →
      h.block? slot = some (Marker.painted block .white) := by
    intro slot block hblock
    rw [block?_eq_some_iff, ← hm.recolors, Array.getElem?_map, hblock]
    rfl
  have hmarked : ∀ (slot : Nat) (block : Block), m.slots[slot]? = some (some block) →
      block.header.size = block.body.blockSize ∧ block.header.extent.Aligned ∧
        block.header.color ≠ .grey := by
    intro slot block hblock
    have hproper := hc.proper slot _ (hbase hblock)
    refine ⟨hproper.size_eq, hproper.aligned, ?_⟩
    by_cases hheld : h.Held starts slot
    · rw [hm.black slot block hblock hheld]
      decide
    · rw [hm.white slot block hblock hheld]
      decide
  -- colors are seen neither by the bytes that a table owns nor by the count of its blocks
  have hbytes : ownedBytes m.slots = ownedBytes h.slots := by
    rw [← hm.recolors]
    simp only [ownedBytes, Array.toList_map, List.map_map]
    congr 2
    funext content
    cases content <;> rfl
  have hcount : blockCount m.slots = blockCount h.slots := by
    rw [← hm.recolors]
    simp only [blockCount, Array.toList_map, List.countP_map]
    congr 1
    funext content
    cases content <;> rfl
  have hnone : ∀ slot : Nat, m.slots[slot]? = some none ↔ h.slots[slot]? = some none := by
    intro slot
    rw [← hm.recolors, Array.getElem?_map]
    rcases m.slots[slot]? with _ | _ | block <;> simp [Marker.blanched]
  let start : Sweep :=
    { slots := m.slots, freeSlots := h.freeSlots, arena := h.arena, freedObjects := 0,
      freedBytes := 0 }
  have hstart : start.Swept m.slots h.settings.heapSize h.liveObjects 0 := by
    refine ⟨rfl, fun i hi => absurd hi (Nat.not_lt_zero i), fun _ _ => rfl, hc.tidy, ?_,
      hc.free_aligned, hc.freeSlots_nodup, ?_, ?_⟩
    · have htiles := hc.tiles
      rw [add_zero] at htiles
      rw [← htiles, ← hbytes]
    · intro slot
      rw [hnone]
      exact hc.mem_freeSlots slot
    · rw [hc.liveObjects_eq, ← hcount]
      rfl
  obtain ⟨s, heq, hs⟩ :=
    Sweep.visits_spec hc.heapSize_lt hmarked m.slots.size 0 start hstart (Nat.zero_add _)
  refine ⟨s, ?_, hs⟩
  rw [sweep, List.range_eq_range']
  exact heq

/-- The report of a cycle and the heap that it leaves, once slots are marked and swept. -/
def swept (h : Heap) (m : Marker) (s : Sweep) : CycleReport × Heap :=
  let report : CycleReport :=
    { marked := m.marked
      freedObjects := s.freedObjects
      freedBytes := s.freedBytes
      rescans := m.rescans
      liveObjects := h.liveObjects - s.freedObjects
      freeBytes := s.arena.freeBytes }
  (report, { h with
    slots := s.slots
    freeSlots := s.freeSlots
    arena := s.arena
    markStack := m.stack
    phase := .idle
    liveObjects := h.liveObjects - s.freedObjects
    collections := h.collections + 1
    lastCycle := some report })

/-- A cycle marks and sweeps; neither looks at the phase. -/
theorem cycle_eq {h : Heap} (hphase : h.phase = .idle) (roots awaited : List Value) :
    h.cycle roots awaited = do
      let m ← h.mark roots awaited
      let s ← h.sweep m.slots
      return h.swept m s := by
  simp only [cycle, hphase, decide_true, require, ↓reduceIte]
  rfl

/-- The parts of a collection of a consistent heap without dangling references: the held blocks are
marked, and the marked slots are swept. -/
theorem cycle_parts {h : Heap} {roots awaited : List Value} (hc : h.Consistent 0)
    (hlive : h.EdgesLive) (hregisters : ∀ v ∈ h.registers, h.contains v = true)
    (hroots : ∀ v ∈ roots, h.contains v = true)
    (hawaited : ∀ v ∈ awaited, h.contains v = true) :
    ∃ m s, h.Marked (h.Held (roots ++ awaited)) m ∧ h.sweep m.slots = .ok s ∧
      s.Swept m.slots h.settings.heapSize h.liveObjects m.slots.size ∧
      h.cycle roots awaited = .ok (h.swept m s) := by
  obtain ⟨m, hmark, hm⟩ := mark_spec hc hlive hregisters hroots hawaited
  obtain ⟨s, hsweep, hs⟩ := sweep_spec hc hm
  refine ⟨m, s, hm, hsweep, hs, ?_⟩
  simp only [cycle_eq hc.phase_eq, hmark, hsweep, bind, Except.bind, pure, Except.pure]

/-- A collection of a consistent heap without dangling references ends without a fault, and
keeps exactly the blocks that are held. -/
theorem cycle_spec {h : Heap} {roots awaited : List Value} (hc : h.Consistent 0)
    (hlive : h.EdgesLive) (hregisters : ∀ v ∈ h.registers, h.contains v = true)
    (hroots : ∀ v ∈ roots, h.contains v = true)
    (hawaited : ∀ v ∈ awaited, h.contains v = true) :
    ∃ report h', h.cycle roots awaited = .ok (report, h') ∧
      h.Collected (roots ++ awaited) h' := by
  obtain ⟨m, s, hm, _, hs, hcycle⟩ := cycle_parts hc hlive hregisters hroots hawaited
  -- the black blocks are the held ones, and a sweep leaves these
  have hblock : ∀ slot block, s.slots[slot]? = some (some block) ↔
      h.block? slot = some block ∧ h.Held (roots ++ awaited) slot := by
    intro slot block
    rw [hs.slots_eq, Array.getElem?_map, block?_eq_some_iff, ← hm.recolors, Array.getElem?_map]
    rcases hslot : m.slots[slot]? with _ | _ | found
    · simp
    · simp [Sweep.survivor, Marker.blanched]
    · by_cases hheld : h.Held (roots ++ awaited) slot
      · simp [Sweep.survivor, Marker.blanched, hm.black slot found hslot hheld, hheld]
      · simp [Sweep.survivor, hm.white slot found hslot hheld, hheld]
  have hsize : s.slots.size = h.slots.size := by
    rw [hs.size_eq, ← hm.recolors, Array.size_map]
  refine ⟨_, _, hcycle, rfl, rfl, hsize, rfl, ?_, ?_⟩
  · intro slot block
    rw [block?_eq_some_iff]
    exact hblock slot block
  · refine ⟨hc.settings_ok, hs.tidy, ?_, hs.free_aligned, hs.freeSlots_nodup, hs.mem_freeSlots,
      ?_, ?_, ?_, rfl, hm.stack_eq⟩
    · rw [add_zero]
      exact hs.tiles
    · have := hs.count_eq
      dsimp only
      omega
    · dsimp only
      rw [hsize]
      exact hc.slots_le
    · intro slot block hfound
      exact hc.proper slot block ((hblock slot block).mp (block?_eq_some_iff.mp hfound)).1

end Heap

end ObjectHeap
