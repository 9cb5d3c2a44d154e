import ObjectHeap.Proofs.Runs

/-! # Draining

Draining empties the mark stack, and as long as the stack has overflowed meanwhile it passes over
all slots, which may make the stack overflow again. A pass can leave grey blocks behind, also in
slots that it has passed already. Still the loop ends: a pass is made after an overflow only, an
overflow comes with a block that turns grey, and a block turns grey once. So there are no more
passes than shaded blocks, whatever the size of the stack.

The loop is stated as a relation without any bound on its rounds.
-/

namespace ObjectHeap

namespace Marker

variable {m m' m'' : Marker}

/-! ## Overflows are paid for -/

/-- What marking does to its counts between two passes over the slots: the stack does not overflow
without a block that is shaded. -/
structure Tallies (m m' : Marker) : Prop where
  rescans_eq : m'.rescans = m.rescans
  overflow_le : m.marked + m'.overflowed.toNat ≤ m'.marked + m.overflowed.toNat

theorem Tallies.refl (m : Marker) : m.Tallies m := ⟨rfl, Nat.le_refl _⟩

theorem Tallies.trans (h : m.Tallies m') (h' : m'.Tallies m'') : m.Tallies m'' := by
  have hfirst := h.overflow_le
  have hsecond := h'.overflow_le
  exact ⟨h'.rescans_eq.trans h.rescans_eq, by omega⟩

/-- If passes, and the overflow that asks for the next one, are no more than shaded blocks, they
stay so. -/
theorem Tallies.paid (h : m.Tallies m') (hpaid : m.rescans + m.overflowed.toNat ≤ m.marked) :
    m'.rescans + m'.overflowed.toNat ≤ m'.marked := by
  have hrescans := h.rescans_eq
  have hoverflow := h.overflow_le
  omega

/-- An overflow when a value is shaded is paid for by that value. -/
theorem tallies_shade {v : Value} (h : m.shade v = .ok m') : m.Tallies m' := by
  unfold shade at h
  split at h
  next => cases h; exact Tallies.refl m
  next =>
    split at h
    next =>
      split at h
      next =>
        split at h
        next =>
          cases h
          exact ⟨rfl, by dsimp only; omega⟩
        next =>
          cases h
          exact ⟨rfl, by simp⟩
      next => cases h; exact Tallies.refl m
    next => cases h

theorem tallies_shadeAll {values : List Value} (h : m.shadeAll values = .ok m') :
    m.Tallies m' := by
  induction values generalizing m with
  | nil => cases h; exact Tallies.refl _
  | cons v rest ih =>
      rw [shadeAll, List.foldlM_cons] at h
      obtain ⟨next, hv, hrest⟩ := bind_eq_ok_iff.mp h
      exact (tallies_shade hv).trans (ih hrest)

/-- Overflows during a scan are paid for by the values that it shades. -/
theorem tallies_scan {slot : Nat} (h : m.scan slot = .ok m') : m.Tallies m' := by
  unfold scan at h
  split at h
  next =>
    split at h
    next => cases h; exact Tallies.refl m
    next =>
      have hedges := tallies_shadeAll h
      exact ⟨hedges.rescans_eq, hedges.overflow_le⟩
  next => cases h; exact Tallies.refl m

/-- Scanning the block on top of the stack, which is off the stack by then. -/
theorem tallies_scanTop {slot : Nat}
    (h : { m with stack := m.stack.pop }.scan slot = .ok m') : m.Tallies m' := by
  have hscan := tallies_scan h
  exact ⟨hscan.rescans_eq, hscan.overflow_le⟩

theorem tallies_drainStack (h : m.drainStack = .ok m') : m.Tallies m' := by
  fun_induction drainStack m with
  | case1 m hstack => cases h; exact Tallies.refl _
  | case2 m slot hstack fault hscan => cases h
  | case3 m slot hstack next hscan ih => exact (tallies_scanTop hscan).trans (ih h)

theorem tallies_rescan (h : m.rescan = .ok m') : m.Tallies m' := by
  apply rescan_induction Tallies.refl (fun _ _ _ => Tallies.trans) ?_ h
  intro m m' slot hvisit
  rcases visitGrey_cases hvisit with rfl | ⟨_, scanned, hscan, hdrain⟩
  · exact Tallies.refl _
  · exact (tallies_scan hscan).trans (tallies_drainStack hdrain)

/-! ## The loop -/

/-- The loop of draining: `m.Drains n m'` if it ends in `m'` after `n` passes over the slots. -/
inductive Drains : Marker → Nat → Marker → Prop
  | done {m m' : Marker} : m.drainStack = .ok m' → m'.overflowed = false → Drains m 0 m'
  | again {m drained passed m' : Marker} {n : Nat} : m.drainStack = .ok drained →
      drained.overflowed = true →
      { drained with overflowed := false, rescans := drained.rescans + 1 }.rescan = .ok passed →
      Drains passed n m' → Drains m (n + 1) m'

/-- A drained stack is empty. -/
theorem stack_eq_of_drainStack (h : m.drainStack = .ok m') : m'.stack = #[] := by
  fun_induction drainStack m with
  | case1 m hstack => cases h; simpa using hstack
  | case2 m slot hstack fault hscan => cases h
  | case3 m slot hstack next hscan ih => exact ih h

/-- Draining is the loop: it never stops before the loop would. -/
theorem drains_of_drain (h : m.drain = .ok m') : ∃ n, m.Drains n m' := by
  induction hpending : m.pending using Nat.strongRecOn generalizing m with
  | _ count ih =>
      rw [drain] at h
      obtain ⟨drained, hdrain, hrest⟩ := bind_eq_ok_iff.mp h
      cases hover : drained.overflowed with
      | false =>
          simp only [hover, Bool.not_false, ↓reduceIte] at hrest
          cases hrest
          exact ⟨0, .done hdrain hover⟩
      | true =>
          simp only [hover, Bool.not_true, Bool.false_eq_true, ↓reduceIte] at hrest
          obtain ⟨passed, hpass, hrest⟩ := bind_eq_ok_iff.mp hrest
          split at hrest
          next hlt =>
            obtain ⟨n, hn⟩ := ih passed.pending (hpending ▸ hlt) hrest rfl
            exact ⟨n + 1, .again hdrain hover hpass hn⟩
          next hnot =>
            cases hrest
            -- nothing was left to do, so that the next round is the last one
            have hle := pending_drainStack_le hdrain
            have hsame :
                m' = { drained with overflowed := false, rescans := drained.rescans + 1 } :=
              (rescan_progress hpass).resolve_left fun hlt => hnot (Nat.lt_of_lt_of_le hlt hle)
            have hempty : drained.stack = #[] := stack_eq_of_drainStack hdrain
            have hidle : m'.drainStack = .ok m' := by
              rw [drainStack]
              split
              next => rfl
              next slot hback => simp [hsame, hempty] at hback
            exact ⟨1, .again hdrain hover hpass (.done hidle (by rw [hsame]))⟩

/-- The loop counts its passes. -/
theorem Drains.rescans_eq {n : Nat} (h : m.Drains n m') : m'.rescans = m.rescans + n := by
  induction h with
  | done hdrain _ => exact (tallies_drainStack hdrain).rescans_eq
  | @again m drained passed m' n hdrain _ hpass _ ih =>
      have hpassed : passed.rescans = drained.rescans + 1 := (tallies_rescan hpass).rescans_eq
      rw [ih, hpassed, (tallies_drainStack hdrain).rescans_eq]
      omega

/-- Each pass comes with a block that is shaded in the loop, the first one apart if the stack had
overflowed before. -/
theorem Drains.passes_le {n : Nat} (h : m.Drains n m') :
    n + m.marked ≤ m'.marked + m.overflowed.toNat := by
  induction h with
  | done hdrain _ =>
      have hdrained := (tallies_drainStack hdrain).overflow_le
      omega
  | @again m drained passed m' n hdrain hover hpass _ ih =>
      have hdrained := (tallies_drainStack hdrain).overflow_le
      -- the pass starts without an overflow, so that one in it is paid for in it
      have hpassed : drained.marked + passed.overflowed.toNat ≤ passed.marked :=
        (tallies_rescan hpass).overflow_le
      rw [hover, Bool.toNat_true] at hdrained
      omega

/-! ## States of marking -/

/-- After draining, what is reached is black. -/
theorem Drained.color?_of_reached {base : Array (Option Block)} {held : Nat → Prop} {slot : Nat}
    (h : m.Drained base held) (hslot : m.Reached slot) : color? m.slots slot = some .black := by
  have ⟨block, hblock, _⟩ := hslot
  exact color?_eq_some.mpr ⟨block, hblock, h.black_of_reached hblock hslot⟩

/-- Marking before its first step. -/
def fresh (slots : Array (Option Block)) (limit : Nat) : Marker :=
  { slots, stack := #[], limit, overflowed := false, marked := 0, rescans := 0 }

end Marker

open Marker

namespace Heap

variable {h : Heap} {limit : Nat} {m m' : Marker}

/-- The states of marking a heap with a stack of some size: values are shaded, blocks on top of
the stack are scanned, and the stack is drained, in any order. -/
inductive Marking (h : Heap) (limit : Nat) : Marker → Prop
  | start : h.Unmarked → Marking h limit (fresh h.slots limit)
  | shade {m m' : Marker} {v : Value} : Marking h limit m → h.contains v = true →
      m.shade v = .ok m' → Marking h limit m'
  | scan {m m' : Marker} {slot : Nat} : Marking h limit m → m.stack.back? = some slot →
      { m with stack := m.stack.pop }.scan slot = .ok m' → Marking h limit m'
  | drain {m m' : Marker} : Marking h limit m → m.drain = .ok m' → Marking h limit m'

/-- What holds in each of these states: only blocks are reached, every grey one is on the stack
unless that has overflowed, and passes and overflows are paid for. -/
structure Underway (h : Heap) (m : Marker) : Prop where
  tricolor : m.Tricolor h.slots (Occupied h.slots) fun _ => False
  shaded : m.Shaded
  paid : m.rescans + m.overflowed.toNat ≤ m.marked

/-- Occupied slots are closed under references if these lead to blocks. -/
theorem EdgesLive.edgeClosed (hlive : h.EdgesLive) : EdgeClosed h.slots (Occupied h.slots) := by
  intro slot block _ hblock v hv next hnext
  have hcontains := hlive slot block (block?_eq_some_iff.mpr hblock) v hv
  exact occupied_iff.mpr (contains_iff.mp hcontains next hnext)

theorem occupied_of_contains {v : Value} (hv : h.contains v = true) :
    ∀ slot, v.slot? = some slot → Occupied h.slots slot := fun slot hslot =>
  occupied_iff.mpr (contains_iff.mp hv slot hslot)

namespace Underway

theorem start (hu : h.Unmarked) : h.Underway (fresh h.slots limit) := by
  obtain ⟨htri, hshaded⟩ := hu.tricolor (m := fresh h.slots limit) rfl rfl rfl
  exact ⟨htri, hshaded, Nat.le_refl _⟩

/-- Live values can be shaded. -/
theorem shadeAll (hm : h.Underway m) {values : List Value}
    (hvalues : ∀ v ∈ values, h.contains v = true) :
    ∃ m', m.shadeAll values = .ok m' ∧ h.Underway m' ∧ m.Shades values m' := by
  obtain ⟨m', hshade, htri, hshades⟩ :=
    (shadeAll_spec hm.tricolor fun v hv => occupied_of_contains (hvalues v hv)).exists_ok
      fun _ hslot => hslot
  exact ⟨m', hshade, ⟨htri, hshades.shaded hm.tricolor htri hm.shaded,
    (tallies_shadeAll hshade).paid hm.paid⟩, hshades⟩

theorem scan (hm : h.Underway m) (hlive : h.EdgesLive) {slot : Nat}
    (hstack : m.stack.back? = some slot)
    (hscan : { m with stack := m.stack.pop }.scan slot = .ok m') : h.Underway m' := by
  obtain ⟨htri, hshaded, _⟩ :=
    (scan_popped hlive.edgeClosed hm.tricolor hm.shaded hstack).ok m' hscan
  exact ⟨htri, hshaded, (tallies_scanTop hscan).paid hm.paid⟩

/-- Draining ends, and only darkens. -/
theorem drain (hm : h.Underway m) (hlive : h.EdgesLive) :
    ∃ m', m.drain = .ok m' ∧ h.Underway m' ∧ m'.Drained h.slots (Occupied h.slots) ∧
      m.Darkens m' := by
  obtain ⟨m', hdrain, hdrained, hdarkens⟩ :=
    (drain_spec hlive.edgeClosed m hm.tricolor hm.shaded).exists_ok fun _ hslot => hslot
  obtain ⟨n, hn⟩ := drains_of_drain hdrain
  have hpasses := hn.passes_le
  have hpaid := hm.paid
  refine ⟨m', hdrain, ⟨hdrained.tricolor, hdrained.shaded, ?_⟩, hdrained, hdarkens⟩
  rw [hn.rescans_eq, hdrained.overflowed_eq, Bool.toNat_false]
  omega

end Underway

/-- A marking of a heap without dangling references is under way. -/
theorem Marking.underway (hm : h.Marking limit m) (hlive : h.EdgesLive) : h.Underway m := by
  induction hm with
  | start hu => exact Underway.start hu
  | @shade m m' v _ hv hshade ih =>
      have hvalues : ∀ w ∈ [v], h.contains w = true := by simpa using hv
      obtain ⟨next, hnext, hunderway, _⟩ := ih.shadeAll hvalues
      rw [shadeAll, List.foldlM_cons, hshade] at hnext
      cases hnext
      exact hunderway
  | scan _ hstack hscan ih => exact ih.scan hlive hstack hscan
  | drain _ hdrain ih =>
      obtain ⟨next, hnext, hunderway, _⟩ := ih.drain hlive
      cases hnext.symm.trans hdrain
      exact hunderway

/-- From any state of marking a heap without dangling edges, live roots can be shaded, and then
draining ends. Passes over the slots are no more in all than blocks have been shaded, and those of
this drain no more than it shades blocks, but for one if the stack had overflowed before. The
stack is empty then and no overflow is left; no block is grey, the edges of black blocks lead to
black blocks, and the blocks that had been shaded, those of the roots too, are among them. Nothing
but colors has changed. -/
theorem Marking.drain_ends (hm : h.Marking limit m) (hlive : h.EdgesLive) {roots : List Value}
    (hroots : ∀ v ∈ roots, h.contains v = true) :
    ∃ (shaded m' : Marker) (n : Nat), m.shadeAll roots = .ok shaded ∧ shaded.drain = .ok m' ∧
      shaded.Drains n m' ∧ m'.rescans = shaded.rescans + n ∧
      n + shaded.marked ≤ m'.marked + shaded.overflowed.toNat ∧
      m'.rescans ≤ m'.marked ∧ m'.marked = reachedCount m'.slots ∧
      m'.stack = #[] ∧ m'.overflowed = false ∧
      (∀ slot, color? m'.slots slot ≠ some .grey) ∧
      (∀ (slot : Nat) (block : Block), m'.slots[slot]? = some (some block) →
        block.header.color = .black → ∀ v ∈ block.body.edges, ∀ next, v.slot? = some next →
          color? m'.slots next = some .black) ∧
      (∀ slot, m.Reached slot → color? m'.slots slot = some .black) ∧
      (∀ v ∈ roots, ∀ slot, v.slot? = some slot → color? m'.slots slot = some .black) ∧
      m'.slots.map blanched = h.slots := by
  obtain ⟨shaded, hshade, hshaded, hshades⟩ := (hm.underway hlive).shadeAll hroots
  obtain ⟨m', hdrain, hm', hdrained, hdarkens⟩ := hshaded.drain hlive
  obtain ⟨n, hn⟩ := drains_of_drain hdrain
  refine ⟨shaded, m', n, hshade, hdrain, hn, hn.rescans_eq, hn.passes_le,
    Nat.le_trans (Nat.le_add_right _ _) hm'.paid, hm'.tricolor.marked_eq, hdrained.stack_eq,
    hdrained.overflowed_eq, hdrained.not_grey, ?_, ?_, ?_, hm'.tricolor.recolors⟩
  · intro slot block hblock hcolor v hv next hnext
    exact hdrained.color?_of_reached (hdrained.shaded slot block hblock hcolor v hv next hnext)
  · intro slot hslot
    exact hdrained.color?_of_reached
      (hdarkens.reached slot (hshades.darkens.reached slot hslot))
  · intro v hv slot hslot
    exact hdrained.color?_of_reached (hdarkens.reached slot (hshades.reached v hv slot hslot))

/-- A heap of two lists and three integers, in which references lead to lower slots. A pass that
comes to the first list makes a stack of one entry overflow with an integer that it has passed. -/
def descending : Heap where
  settings := crampedSettings
  slots := #[
    some ⟨⟨.integer, .white, false, ⟨0, 16⟩⟩, .integer 5⟩,
    some ⟨⟨.integer, .white, false, ⟨16, 16⟩⟩, .integer 6⟩,
    some ⟨⟨.list, .white, false, ⟨32, 32⟩⟩, .objects ⟨#[Value.ofSlot 1, Value.ofSlot 0], 2⟩⟩,
    some ⟨⟨.integer, .white, false, ⟨64, 16⟩⟩, .integer 7⟩,
    some ⟨⟨.list, .white, false, ⟨80, 32⟩⟩, .objects ⟨#[Value.ofSlot 3, Value.ofSlot 2], 2⟩⟩]
  freeSlots := []
  arena := ⟨[⟨112, 32⟩], 32⟩
  registers := #[]
  markStack := #[]
  phase := .idle
  liveObjects := 5
  collections := 0
  lastCycle := none

theorem descending_blocks {slot : Nat} {block : Block}
    (hblock : descending.block? slot = some block) :
    block.header.color = .white ∧ ∀ v ∈ block.body.edges, descending.contains v = true := by
  have hmem := Array.mem_of_getElem? (block?_eq_some_iff.mp hblock)
  simp only [descending, List.mem_toArray, List.mem_cons, Option.some.injEq, List.not_mem_nil,
    or_false] at hmem
  rcases hmem with rfl | rfl | rfl | rfl | rfl <;> exact ⟨rfl, by decide⟩

/-- Two passes are made for five blocks. -/
theorem drain_ends_descending : ∃ shaded m' : Marker,
    (fresh descending.slots 1).shadeAll [Value.ofSlot 4] = .ok shaded ∧ shaded.Drains 2 m' ∧
      m'.marked = 5 ∧ m'.stack = #[] ∧ m'.overflowed = false ∧
      ∀ slot, color? m'.slots slot ≠ some .grey := by
  have hstart : descending.Marking 1 (fresh descending.slots 1) :=
    .start fun _ _ hblock => (descending_blocks hblock).1
  have hlive : descending.EdgesLive := fun _ _ hblock => (descending_blocks hblock).2
  have hroots : ∀ v ∈ [Value.ofSlot 4], descending.contains v = true := by decide
  obtain ⟨shaded, m', n, hshade, hdrain, hn, hrescans, _, _, _, hempty, hover, hgrey, _⟩ :=
    hstart.drain_ends hlive hroots
  have hbefore : ((fresh descending.slots 1).shadeAll [Value.ofSlot 4]).map Marker.rescans =
      .ok 0 := by cbv
  have hafter : ((fresh descending.slots 1).shadeAll [Value.ofSlot 4] >>= Marker.drain).map
      (fun m => (m.rescans, m.marked)) = .ok (2, 5) := by cbv
  rw [hshade] at hbefore hafter
  have hzero : shaded.rescans = 0 := Except.ok.inj hbefore
  obtain ⟨htwo, hfive⟩ : m'.rescans = 2 ∧ m'.marked = 5 := by
    simpa [bind, Except.bind, hdrain, Except.map] using hafter
  obtain rfl : n = 2 := by omega
  exact ⟨shaded, m', hshade, hn, hfive, hempty, hover, hgrey⟩

end Heap

end ObjectHeap
