import ObjectHeap.Proofs.Runs

/-! # Collecting twice

A collection leaves no block that is not held, and no mark. So a second one from the same blocks
marks every block that there is and frees nothing: it does no more than to report again. The roots
may be listed in another order and more than once, which can only change how often the slots are
passed over.
-/

namespace ObjectHeap

/-! ## Sweeping what is all marked -/

namespace Sweep

variable {s : Sweep} {slot : Nat}

/-- A visit to a block that is marked touches its slot alone. -/
theorem visit_black (hblack : ∀ block, s.slots[slot]? = some (some block) →
      block.header.color = .black) :
    ∃ slots, s.visit slot = .ok { s with slots } ∧
      ∀ i : Nat, i ≠ slot → slots[i]? = s.slots[i]? := by
  rcases hslot : s.slots[slot]? with _ | _ | block
  · exact ⟨s.slots, by simp [visit, hslot, pure, Except.pure], fun _ _ => rfl⟩
  · exact ⟨s.slots, by simp [visit, hslot, pure, Except.pure], fun _ _ => rfl⟩
  · refine ⟨_, by simp [visit, hslot, hblack block hslot, pure, Except.pure]; rfl, fun i hi => ?_⟩
    rw [Marker.getElem?_setIfInBounds_of_some hslot, if_neg hi]

theorem visits_black (steps start : Nat) (s : Sweep)
    (hblack : ∀ (slot : Nat) (block : Block), start ≤ slot → s.slots[slot]? = some (some block) →
      block.header.color = .black) :
    ∃ slots, (List.range' start steps).foldlM visit s = .ok { s with slots } := by
  induction steps generalizing start s with
  | zero => exact ⟨s.slots, rfl⟩
  | succ steps ih =>
      obtain ⟨slots, hvisit, hother⟩ := visit_black fun block => hblack start block (Nat.le_refl _)
      -- the slots still to come are as they were
      have hrest : ∀ (slot : Nat) (block : Block), start + 1 ≤ slot →
          slots[slot]? = some (some block) →
          block.header.color = .black := by
        intro slot block hle hblock
        rw [hother slot (by omega)] at hblock
        exact hblack slot block (by omega) hblock
      obtain ⟨slots', hvisits⟩ := ih (start + 1) { s with slots } hrest
      refine ⟨slots', ?_⟩
      rw [List.range'_succ, List.foldlM_cons, hvisit]
      exact hvisits

end Sweep

namespace Heap

variable {admits : Value → Prop} {h h' : Heap} {roots awaited starts : List Value}

/-- A sweep after which every block is still there has changed nothing. -/
theorem sweep_eq_of_held {m : Marker} (hc : h.Consistent 0) (hm : h.Marked (h.Held starts) m)
    (hall : ∀ slot block, h.block? slot = some block → h.Held starts slot) :
    h.sweep m.slots = .ok { slots := h.slots, freeSlots := h.freeSlots, arena := h.arena,
                            freedObjects := 0, freedBytes := 0 } := by
  have hblack : ∀ (slot : Nat) (block : Block), m.slots[slot]? = some (some block) →
      block.header.color = .black := by
    intro slot block hblock
    refine hm.black slot block hblock (hall slot (Marker.painted block .white) ?_)
    rw [block?_eq_some_iff, ← hm.recolors, Array.getElem?_map, hblock]
    rfl
  obtain ⟨s, hsweep, hs⟩ := sweep_spec hc hm
  obtain ⟨slots, hvisits⟩ := Sweep.visits_black m.slots.size 0
    { slots := m.slots, freeSlots := h.freeSlots, arena := h.arena, freedObjects := 0,
      freedBytes := 0 } fun slot block _ => hblack slot block
  rw [← List.range_eq_range'] at hvisits
  have hsame := hsweep.symm.trans hvisits
  cases hsame
  -- to clear all marks is to undo the marking
  have hslots : slots = h.slots := by
    rw [← hm.recolors]
    refine hs.slots_eq.trans (Array.map_congr_left fun content hcontent => ?_)
    obtain ⟨slot, hslot⟩ := Array.mem_iff_getElem?.mp hcontent
    cases content with
    | none => rfl
    | some block => simp [Sweep.survivor, Marker.blanched, hblack slot block hslot]
  rw [hsweep, hslots]

/-! ## Counting what is marked -/

/-- The blocks that were marked are those that a sweep leaves. -/
theorem Marked.marked_eq_blockCount {m : Marker} {s : Sweep} {size count : Nat}
    (hm : h.Marked (h.Held starts) m) (hs : s.Swept m.slots size count m.slots.size) :
    m.marked = blockCount s.slots := by
  rw [hm.marked_eq, Marker.reachedCount, hs.slots_eq, blockCount, Array.toList_map,
    List.countP_map]
  refine List.countP_congr fun content hcontent => ?_
  obtain ⟨slot, hslot⟩ := List.mem_iff_getElem?.mp hcontent
  rw [Array.getElem?_toList] at hslot
  cases content with
  | none => simp [Sweep.survivor]
  | some block =>
      by_cases hheld : h.Held starts slot
      · simp [Sweep.survivor, hm.black slot block hslot hheld]
      · simp [Sweep.survivor, hm.white slot block hslot hheld]

/-- A collection reports as marked the blocks that it leaves. -/
theorem cycle_tally {report : CycleReport} (hc : h.Consistent 0) (hlive : h.EdgesLive)
    (hregisters : ∀ v ∈ h.registers, h.contains v = true)
    (hroots : ∀ v ∈ roots, h.contains v = true) (hawaited : ∀ v ∈ awaited, h.contains v = true)
    (hcycle : h.cycle roots awaited = .ok (report, h')) :
    report.marked = h'.liveObjects ∧ report.liveObjects = h'.liveObjects := by
  obtain ⟨m, s, hm, _, hs, hparts⟩ := cycle_parts hc hlive hregisters hroots hawaited
  cases hparts.symm.trans hcycle
  refine ⟨?_, rfl⟩
  have hcount := hs.count_eq
  have hmarked := hm.marked_eq_blockCount hs
  dsimp only
  omega

/-- A collection that finds every block held changes nothing but its own records. -/
theorem cycle_eq_of_held (hc : h.Consistent 0) (hlive : h.EdgesLive)
    (hregisters : ∀ v ∈ h.registers, h.contains v = true)
    (hroots : ∀ v ∈ roots, h.contains v = true) (hawaited : ∀ v ∈ awaited, h.contains v = true)
    (hall : ∀ slot block, h.block? slot = some block → h.Held (roots ++ awaited) slot) :
    ∃ report, h.cycle roots awaited =
        .ok (report, { h with collections := h.collections + 1, lastCycle := some report }) ∧
      report.freedObjects = 0 ∧ report.freedBytes = 0 := by
  obtain ⟨m, s, hm, hsweep, _, hparts⟩ := cycle_parts hc hlive hregisters hroots hawaited
  cases hsweep.symm.trans (sweep_eq_of_held hc hm hall)
  rw [swept, hm.stack_eq, ← hc.markStack_eq, ← hc.phase_eq] at hparts
  exact ⟨_, hparts, rfl, rfl⟩

/-! ## The second collection -/

def referents (values : List Value) : List Nat := values.filterMap Value.slot?

theorem mem_referents {values : List Value} {slot : Nat} :
    slot ∈ referents values ↔ ∃ v ∈ values, v.slot? = some slot :=
  List.mem_filterMap

/-- What is held depends on the blocks that the starts refer to, not on how they are listed. -/
theorem held_of_referents {starts' : List Value}
    (hsame : ∀ slot, slot ∈ referents starts' ↔ slot ∈ referents starts) {slot : Nat}
    (hheld : h.Held starts slot) : h.Held starts' slot := by
  refine hheld.mono fun v hv slot hslot => ?_
  obtain ⟨w, hw, hslot'⟩ := mem_referents.mp
    ((hsame slot).mpr (mem_referents.mpr ⟨v, hv, hslot⟩))
  exact .start hw hslot'

/-- After a collection, all that is left is held. -/
theorem Collected.held (hcollected : h.Collected starts h') {slot : Nat} {block : Block}
    (hblock : h'.block? slot = some block) : h'.Held starts slot := by
  refine ((hcollected.block?_iff slot block).mp hblock).2.transfer
    (fun v hv s hs => .start hv hs)
    (fun v hv s hs => .register (hcollected.registers_eq ▸ hv) hs) fun s b hs hb => ?_
  exact ⟨b, (hcollected.block?_iff s b).mpr ⟨hb, hs⟩, rfl, fun _ hv => hv⟩

theorem Collected.contains_of_referents (hcollected : h.Collected starts h')
    (hstarts : ∀ v ∈ starts, h.contains v = true) {starts' : List Value}
    (hsame : ∀ slot, slot ∈ referents starts' ↔ slot ∈ referents starts) :
    ∀ v ∈ starts', h'.contains v = true := by
  intro v hv
  rw [contains_iff]
  intro slot hslot
  obtain ⟨w, hw, hslot'⟩ := mem_referents.mp
    ((hsame slot).mp (mem_referents.mpr ⟨v, hv, hslot⟩))
  obtain ⟨block, hblock⟩ := contains_iff.mp (hstarts w hw) slot hslot'
  exact ⟨block, (hcollected.block?_iff slot block).mpr ⟨hblock, .start hw hslot'⟩⟩

variable [Digest]

/-- A second collection, from any values that refer to the same blocks, frees nothing, reports as
many blocks as the first, and leaves all but the count of collections and the last report as it
was. -/
theorem Reachable.collect_idempotent (hr : h.Reachable admits)
    (hroots : ∀ v ∈ roots, h.contains v = true) :
    ∃ report h', collect roots h = .ok report h' ∧
      ∀ roots', (∀ slot, slot ∈ referents roots' ↔ slot ∈ referents roots) →
        ∃ report', collect roots' h' =
            .ok report' { h' with collections := h'.collections + 1, lastCycle := some report' } ∧
          report'.freedObjects = 0 ∧ report'.freedBytes = 0 ∧ report'.marked = report.marked ∧
          report'.liveObjects = report.liveObjects := by
  have hs := hr.sound
  have hlive := hs.coherent.edgesLive
  have hregisters (v : Value) (hv : v ∈ h.registers) := (hs.coherent.registers_usable v hv).1
  have hnone (h : Heap) : ∀ v ∈ ([] : List Value), h.contains v = true := List.forall_mem_nil _
  obtain ⟨report, h', hcycle, hcollected⟩ :=
    cycle_spec hs.consistent hlive hregisters hroots (hnone h)
  obtain ⟨hmarked, hcount⟩ :=
    cycle_tally hs.consistent hlive hregisters hroots (hnone h) hcycle
  rw [List.append_nil] at hcollected
  refine ⟨report, h', collect_eq hcycle, fun roots' hsame => ?_⟩
  -- the heap that is left is sound, and everything in it is held from the other roots as well
  have hs' : h'.Sound admits 0 := ⟨hcollected.consistent, hcollected.coherent hs.coherent⟩
  have hlive' := hs'.coherent.edgesLive
  have hregisters' (v : Value) (hv : v ∈ h'.registers) := (hs'.coherent.registers_usable v hv).1
  have hroots' := hcollected.contains_of_referents hroots hsame
  have hall : ∀ slot block, h'.block? slot = some block → h'.Held (roots' ++ []) slot := by
    intro slot block hblock
    rw [List.append_nil]
    exact held_of_referents hsame (hcollected.held hblock)
  obtain ⟨report', hcycle', hobjects, hbytes⟩ :=
    cycle_eq_of_held hs'.consistent hlive' hregisters' hroots' (hnone h') hall
  obtain ⟨hmarked', hcount'⟩ :=
    cycle_tally hs'.consistent hlive' hregisters' hroots' (hnone h') hcycle'
  exact ⟨report', collect_eq hcycle', hobjects, hbytes, hmarked'.trans hmarked.symm,
    hcount'.trans hcount.symm⟩

omit [Digest] in
/-- The integer is gone after the first collection. The second one is given the list twice, and a
value that refers to nothing. -/
theorem collect_idempotent_cramped : ∃ report h' report',
    collect [Value.ofSlot 0] cramped = .ok report h' ∧
      collect [Value.nil, Value.ofSlot 0, Value.ofSlot 0] h' =
        .ok report' { h' with collections := h'.collections + 1, lastCycle := some report' } ∧
      report'.freedObjects = 0 ∧ report'.marked = report.marked := by
  have hroots : ∀ v ∈ [Value.ofSlot 0], cramped.contains v = true := by decide
  obtain ⟨report, h', hcollect, htwice⟩ :=
    (reachable_cramped fun _ => True).collect_idempotent hroots
  obtain ⟨report', hcollect', hobjects, _, hmarked, _⟩ :=
    htwice [Value.nil, Value.ofSlot 0, Value.ofSlot 0] fun slot => by
      simp [referents, show Value.nil.slot? = none from rfl]
  exact ⟨report, h', report', hcollect, hcollect', hobjects, hmarked⟩

end Heap

end ObjectHeap
