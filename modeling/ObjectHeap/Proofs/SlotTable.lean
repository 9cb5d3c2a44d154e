import ObjectHeap.Proofs.Fitting

/-! # The slot table

Slots are numbered by 32 bits and no limit on them is ever checked. None is needed: a slot is
added only if all others hold blocks and the bytes of the new one are set aside already, blocks
share no byte and none has less than sixteen, so there is no more than one slot for every sixteen
bytes of the arena. Hence the handle of a slot, of the next new one as well, names that slot and
no other.
-/

namespace ObjectHeap.Heap

variable {admits : Value → Prop} {h h' mid : Heap} {loose : Multiset Nat} {roots : List Value}
  {kind : Kind} {body : Body} {slot : Nat} {v : Value}

/-! ## Slots and their handles -/

theorem Consistent.slots_size_le (hc : h.Consistent loose) :
    h.slots.size ≤ h.settings.heapSize / 16 := by
  have hle := hc.slots_le
  omega

/-- Neither a slot nor the next new one is beyond 32 bits. -/
theorem Consistent.slot_lt (hc : h.Consistent loose) (hle : slot ≤ h.slots.size) :
    slot < span32 := Nat.lt_of_le_of_lt hle hc.size_lt

theorem Consistent.ofSlot_inj (hc : h.Consistent loose) {s t : Nat} (hs : s ≤ h.slots.size)
    (ht : t ≤ h.slots.size) (heq : Value.ofSlot s = Value.ofSlot t) : s = t := by
  have hslot := Value.slot?_ofSlot (hc.slot_lt hs)
  rw [heq, Value.slot?_ofSlot (hc.slot_lt ht)] at hslot
  exact (Option.some.inj hslot).symm

theorem Consistent.isSome_of_freeSlots_eq_nil (hc : h.Consistent loose) (hfree : h.freeSlots = [])
    (hlt : slot < h.slots.size) : (h.block? slot).isSome = true := by
  cases hcontent : h.slots[slot] with
  | some block => simp [block?, hlt, hcontent]
  | none =>
      have hmem := (hc.mem_freeSlots slot).mpr (by rw [Array.getElem?_eq_getElem hlt, hcontent])
      rw [hfree] at hmem
      cases hmem

/-! ## New slots -/

/-- A new block is in a slot that there was, or in one that is added to a table without free
slots. -/
def Extends (h : Heap) (slot : Nat) (h' : Heap) : Prop :=
  slot < h.slots.size ∧ h'.slots.size = h.slots.size ∨
    slot = h.slots.size ∧ h'.slots.size = h.slots.size + 1 ∧
      ∀ s < h.slots.size, (h'.block? s).isSome = true

theorem Extends.lt (hextends : h.Extends slot h') : slot < h'.slots.size := by
  rcases hextends with ⟨hlt, hsize⟩ | ⟨rfl, hsize, _⟩ <;> omega

theorem install_extends (hc : h.Consistent loose) (block : Block) {R : Refusal → Heap → Prop} :
    Yields admits (install block) h (fun v h' => ∃ slot, v = Value.ofSlot slot ∧
      h.Extends slot h') R := by
  simp only [Yields, install, modifyGet_apply]
  cases hfree : h.freeSlots with
  | cons slot rest =>
      have hget : h.slots[slot]? = some none :=
        (hc.mem_freeSlots slot).mp (hfree ▸ List.mem_cons_self ..)
      have hlt : slot < h.slots.size := (Array.getElem?_eq_some_iff.mp hget).1
      exact ⟨slot, rfl, Or.inl ⟨hlt, Array.size_setIfInBounds⟩⟩
  | nil =>
      refine ⟨h.slots.size, rfl, Or.inr ⟨rfl, Array.size_push .., fun s hs => ?_⟩⟩
      rw [block?_push rfl, if_neg (Nat.ne_of_lt hs)]
      exact hc.isSome_of_freeSlots_eq_nil hfree hs

/-- An allocation looks at the table only once its bytes are reserved, and a collection that they
need adds no slot. -/
theorem allocate_extends (hc : h.Consistent 0) (hlive : h.EdgesLive)
    (hregisters : ∀ v ∈ h.registers, h.contains v = true)
    (hroots : ∀ v ∈ roots, h.contains v = true) (hfits : body.fits kind = true)
    (hedges : ∀ v ∈ body.edges, h.contains v = true) :
    Yields admits (allocate roots kind body) h (fun v h' => ∃ slot, v = Value.ofSlot slot ∧
      h.Extends slot h') fun _ _ => True := by
  have hpos : 0 < body.blockSize := Nat.lt_of_lt_of_le (by decide) body.le_blockSize
  refine Yields.look_eq (a := ()) (require_eq_ok_iff.mpr hfits) ?_
  refine Yields.bind ((reserve_settles hc hlive hregisters hroots hedges body.eight_dvd_blockSize
    hpos).mono (fun _ _ hok => hok) fun _ _ _ => trivial) fun extent mid hmid => ?_
  have hheader : Header.new kind extent =
      .ok { kind, color := .white, pinned := false, extent } := by
    rw [Header.new, kind_not_inline hfits]
    rfl
  have hmid : mid.Consistent extent.bytes ∧ mid.slots.size = h.slots.size := by
    rcases hmid with ⟨_, hcarved⟩ | ⟨_, _, collected, hcollected, _, hcarved⟩
    · obtain ⟨arena, rfl⟩ := hcarved.eq
      exact ⟨hcarved.consistent, rfl⟩
    · obtain ⟨arena, rfl⟩ := hcarved.eq
      exact ⟨hcarved.consistent, hcollected.size_eq⟩
  refine Yields.look_eq hheader ((install_extends hmid.1 _).mono ?_ fun _ _ hrefused => hrefused)
  rintro v h' ⟨slot, rfl, hextends⟩
  exact ⟨slot, rfl, by simpa only [Extends, hmid.2] using hextends⟩

/-! ## New handles -/

/-- A handle that names a new block and nothing else. -/
structure Issues (h : Heap) (starts : List Value) (v : Value) (slot : Nat) (h' : Heap) : Prop where
  value_eq : v = Value.ofSlot slot
  slot?_eq : v.slot? = some slot
  occupied : (h'.block? slot).isSome = true
  size_le : h'.slots.size ≤ h'.settings.heapSize / 16
  /-- No other slot has this handle. -/
  apart : ∀ s ≤ h'.slots.size, s ≠ slot → Value.ofSlot s ≠ v
  /-- What was held is where it was, in another slot. -/
  kept : ∀ s block, h.block? s = some block → h.Held starts s →
    s ≠ slot ∧ h'.block? s = some block
  grows : h.Extends slot h'

theorem Lodged.kept {stays : Nat → Prop} (hlodged : h.Lodged kind body stays slot h') {s : Nat}
    {block : Block} (hblock : h.block? s = some block) (hstays : stays s) :
    s ≠ slot ∧ h'.block? s = some block := by
  have hne : s ≠ slot := by
    rintro rfl
    exact hlodged.vacated block hblock hstays
  exact ⟨hne, (hlodged.others s block hne).mpr ⟨hblock, hstays⟩⟩

/-- What an allocation answers with is the handle of its block alone. -/
theorem allocate_issues [Digest] (hs : h.Sound admits 0)
    (hroots : ∀ v ∈ roots, h.Usable admits v) (ha : h.Accepts admits kind body)
    (hok : allocate roots kind body h = .ok v h') :
    ∃ slot, h.Issues (roots ++ body.edges) v slot h' := by
  have hlive := hs.coherent.edgesLive
  have hregisters (v : Value) (hv : v ∈ h.registers) := (hs.coherent.registers_usable v hv).1
  have hroots' (v : Value) (hv : v ∈ roots) := (hroots v hv).1
  have hedges (v : Value) (hv : v ∈ body.edges) := (ha.edges_usable v hv).1
  have hyields : Yields admits (allocate roots kind body) h _ _ := allocate_yields hs hroots ha
  have hextends : Yields admits (allocate roots kind body) h _ _ :=
    allocate_extends hs.consistent hlive hregisters hroots' ha.fits hedges
  have hsettles : Yields admits (allocate roots kind body) h _ _ :=
    allocate_settles hs.consistent hlive hregisters hroots' ha.fits hedges
  obtain ⟨_, _, hnew⟩ := hyields.result hok
  obtain ⟨slot, rfl, hextends⟩ := hextends.result hok
  obtain ⟨slot', heq, hlodged⟩ := hsettles.result hok
  have hc := hnew.sound.consistent
  have hlt := hextends.lt
  -- a collection keeps what is held, and without one all stays
  obtain ⟨stays, hlodged, hheld⟩ : ∃ stays : Nat → Prop, h.Lodged kind body stays slot' h' ∧
      ∀ s, h.Held (roots ++ body.edges) s → stays s := by
    rcases hlodged with ⟨_, _, hlodged⟩ | ⟨_, _, _, _, hlodged⟩
    · exact ⟨_, hlodged, fun _ _ => trivial⟩
    · exact ⟨_, hlodged, fun _ hs => hs⟩
  obtain ⟨block, hblock, _⟩ := hlodged.block
  obtain rfl := hc.ofSlot_inj hlt.le (lt_size_of_block? hblock).le heq
  exact ⟨slot, rfl, Value.slot?_ofSlot (hc.slot_lt hlt.le), by rw [hblock]; rfl, hc.slots_size_le,
    fun s hs hne heq => hne (hc.ofSlot_inj hs hlt.le heq),
    fun s block hblock hs => hlodged.kept hblock (hheld s hs), hextends⟩

/-- There are never more slots than sixteenths of the arena. So no slot, and not the next new one
either, is cut off by 32 bits, and handles tell slots apart; a free slot is one of the table and a
pinned block is found by its handle. A handle that is new names the new block alone, and no block
that was held. -/
theorem Reachable.slots_bounded [Digest] (hr : h.Reachable admits) :
    h.slots.size ≤ h.settings.heapSize / 16 ∧
    (∀ slot ≤ h.slots.size, slot % 2 ^ 32 = slot ∧ (Value.ofSlot slot).slot? = some slot) ∧
    (∀ slot ∈ h.freeSlots, slot < h.slots.size) ∧
    (∀ v ∈ Marker.pinned h.slots, ∃ slot block, v.slot? = some slot ∧
      h.block? slot = some block ∧ block.header.pinned = true) ∧
    ∀ roots kind body v h', (∀ v ∈ roots, h.Usable admits v) → h.Accepts admits kind body →
      allocate roots kind body h = .ok v h' →
      ∃ slot, h.Issues (roots ++ body.edges) v slot h' := by
  have hc := hr.sound.consistent
  refine ⟨hc.slots_size_le, fun slot hle => ?_, fun slot hfree => ?_, fun v hv => ?_,
    fun roots kind body v h' hroots ha hok => allocate_issues hr.sound hroots ha hok⟩
  · have hlt := hc.slot_lt hle
    exact ⟨Nat.mod_eq_of_lt hlt, Value.slot?_ofSlot hlt⟩
  · exact (hc.wellFormed.mem_freeSlots slot).mp hfree |>.1
  · obtain ⟨slot, block, hblock, hpinned, rfl⟩ := Marker.mem_pinned.mp hv
    have hblock := block?_eq_some_iff.mpr hblock
    exact ⟨slot, block, Value.slot?_ofSlot (hc.slot_lt (lt_size_of_block? hblock).le), hblock,
      hpinned⟩

/-- The next integer gets a third slot, of nine that there can be. -/
theorem slots_bounded_cramped : ∃ h',
    allocate [Value.ofSlot 0] .integer (.integer 9) cramped = .ok (Value.ofSlot 2) h' ∧
      cramped.slots.size ≤ 9 ∧ h'.slots.size = 3 ∧ h'.block? 0 = cramped.block? 0 := by
  have hargs : ∀ v ∈ [Value.ofSlot 0], cramped.Usable (fun _ => True) v := by
    intro v hv
    obtain rfl := List.mem_singleton.mp hv
    exact usable_of_slot? rfl rfl
  have haccepts : cramped.Accepts (fun _ => True) .integer (.integer 9) :=
    ⟨rfl, trivial, by simp [Body.edges], nofun⟩
  obtain ⟨h', hok⟩ : ∃ h', allocate [Value.ofSlot 0] .integer (.integer 9) cramped =
      .ok (Value.ofSlot 2) h' := ⟨_, by cbv⟩
  obtain ⟨hbound, _, _, _, hissues⟩ := (reachable_cramped fun _ => True).slots_bounded
  obtain ⟨slot, hissued⟩ := hissues _ _ _ _ _ hargs haccepts hok
  obtain rfl : slot = 2 := Option.some.inj (hissued.slot?_eq.symm.trans rfl)
  refine ⟨h', hok, hbound, ?_, ?_⟩
  · exact (hissued.grows.resolve_left fun hold => absurd hold.1 (by decide)).2.1
  · exact (hissued.kept 0 _ rfl (.start List.mem_cons_self rfl)).2

end ObjectHeap.Heap
