import ObjectHeap.Proofs.FirstFit
import ObjectHeap.Proofs.Idempotence
import ObjectHeap.Proofs.Stock

/-! # Balanced counts

A collection counts blocks as it marks them and blocks and bytes as it frees them, the heap keeps
a count of its blocks from operation to operation, and the bytes in use are what the free list
leaves. These counts are taken in different places and agree: no block is counted twice, and each
extent is credited once.
-/

namespace ObjectHeap

/-! ## What a sweep credits -/

/-- A released extent counts as free. -/
theorem Arena.freeBytes_release {a a' : Arena} {e : Extent} (hrelease : a.release e = .ok a') :
    a'.freeBytes = a.freeBytes + e.len := by
  unfold release at hrelease
  split at hrelease
  next hempty =>
    cases hrelease
    rw [hempty, Nat.add_zero]
  next =>
    obtain ⟨extents, _, hrelease⟩ := bind_eq_ok_iff.mp hrelease
    cases hrelease
    rfl

namespace Sweep

variable {s s' : Sweep} {slot : Nat}

/-- A visit credits the arena with the bytes that it counts as freed. -/
theorem visit_credits (hvisit : s.visit slot = .ok s') :
    s'.arena.freeBytes + s.freedBytes = s.arena.freeBytes + s'.freedBytes := by
  unfold visit at hvisit
  split at hvisit
  next => cases hvisit; rfl
  next block _ =>
    split at hvisit
    next => cases hvisit; rfl
    next => cases hvisit
    next =>
      obtain ⟨_, _, hvisit⟩ := bind_eq_ok_iff.mp hvisit
      obtain ⟨arena, hrelease, hvisit⟩ := bind_eq_ok_iff.mp hvisit
      cases hvisit
      have hcredit := Arena.freeBytes_release hrelease
      dsimp only
      rw [Header.size]
      omega

/-- By induction on the slots: what visits free is what they report. -/
theorem visits_credit {slots : List Nat} (hvisits : slots.foldlM visit s = .ok s') :
    s'.arena.freeBytes + s.freedBytes = s.arena.freeBytes + s'.freedBytes := by
  induction slots generalizing s with
  | nil =>
      cases hvisits
      rfl
  | cons slot slots ih =>
      rw [List.foldlM_cons] at hvisits
      obtain ⟨next, hvisit, hvisits⟩ := bind_eq_ok_iff.mp hvisits
      have hfirst := visit_credits hvisit
      have hrest := ih hvisits
      omega

end Sweep

namespace Heap

variable {admits : Value → Prop} {h h' : Heap} {roots awaited starts : List Value}

theorem sweep_credits {slots : Array (Option Block)} {s : Sweep} (hsweep : h.sweep slots = .ok s) :
    s.arena.freeBytes = h.freeBytes + s.freedBytes := by
  simpa [freeBytes] using Sweep.visits_credit hsweep

/-! ## What is held and what is not -/

open Classical in
/-- The blocks that are held. -/
noncomputable def heldBlocks (h : Heap) (starts : List Value) : List (Nat × Block) :=
  h.blocks.filter fun entry => h.Held starts entry.1

open Classical in
/-- The blocks that are not held. -/
noncomputable def garbage (h : Heap) (starts : List Value) : List (Nat × Block) :=
  h.blocks.filter fun entry => ¬ h.Held starts entry.1

def bytesIn (blocks : List (Nat × Block)) : Nat :=
  (blocks.map fun entry => entry.2.body.blockSize).sum

/-- Each block is either held or garbage. -/
theorem heldBlocks_append_garbage_perm (h : Heap) (starts : List Value) :
    (h.heldBlocks starts ++ h.garbage starts).Perm h.blocks := by
  classical
  simpa [heldBlocks, garbage] using
    List.filter_append_perm (fun entry => decide (h.Held starts entry.1)) h.blocks

theorem mem_heldBlocks {entry : Nat × Block} :
    entry ∈ h.heldBlocks starts ↔ h.block? entry.1 = some entry.2 ∧ h.Held starts entry.1 := by
  simp [heldBlocks, mem_blocks]

/-- A collection leaves the blocks that are held. -/
theorem Collected.blocks_perm_heldBlocks (hcollected : h.Collected starts h') :
    h'.blocks.Perm (h.heldBlocks starts) := by
  have hnodup (h : Heap) : h.blocks.Nodup := .of_map Prod.fst (nodup_blocks h)
  refine (List.perm_ext_iff_of_nodup (hnodup h') ((hnodup h).filter _)).mpr fun entry => ?_
  exact mem_blocks.trans ((hcollected.block?_iff ..).trans mem_heldBlocks.symm)

theorem bytesIn_heldBlocks_add_bytesIn_garbage (h : Heap) (starts : List Value) :
    bytesIn (h.heldBlocks starts) + bytesIn (h.garbage starts) = bytesIn h.blocks := by
  simpa [bytesIn] using ((heldBlocks_append_garbage_perm h starts).map
    fun entry => entry.2.body.blockSize).sum_eq

/-! ## Counts between operations -/

/-- Every byte is used or free. -/
theorem Consistent.usedBytes_add_freeBytes (hc : h.Consistent 0) :
    h.usedBytes + h.freeBytes = h.settings.heapSize := by
  have htiles := congrArg Multiset.card hc.tiles
  rw [add_zero, Multiset.card_add, Multiset.card_range, ← hc.tidy.freeBytes_eq_card] at htiles
  rw [usedBytes, freeBytes]
  omega

theorem Consistent.largest_le_freeBytes (hc : h.Consistent 0) : h.arena.largest ≤ h.freeBytes := by
  rw [freeBytes, hc.tidy.freeBytes_eq, Arena.largest_eq]
  cases hmax : (h.arena.extents.map Extent.len).max? with
  | none => exact Nat.zero_le _
  | some len => exact List.le_sum_of_mem (List.max?_mem hmax)

/-- The names of the kinds, each once. -/
def kindNames : List String := (Kind.all.map Kind.name).eraseDups.mergeSort (· ≤ ·)

theorem mem_kindNames (kind : Kind) : kind.name ∈ kindNames := by
  rw [kindNames, List.mem_mergeSort, List.mem_eraseDups]
  refine List.mem_map_of_mem ?_
  cases kind <;> decide

theorem nodup_kindNames : kindNames.Nodup := by
  rw [kindNames, (List.mergeSort_perm ..).nodup_iff]
  decide +kernel

/-- The census counts each block once. -/
theorem sum_census (h : Heap) : (h.census.map Prod.snd).sum = h.blocks.length := by
  let names := h.blocks.map fun entry => entry.2.header.kind.name
  -- a name that no block has is left out, and counts for nothing
  have hdrop (distinct : List String) :
      ((distinct.filterMap fun name => if names.count name = 0 then none
        else some (name, names.count name)).map Prod.snd).sum = (distinct.map names.count).sum := by
    induction distinct with
    | nil => rfl
    | cons name distinct ih =>
        by_cases hzero : names.count name = 0 <;> simp [hzero, ih]
  have hall : ∀ name ∈ names, name ∈ kindNames.toFinset := by
    intro name hname
    obtain ⟨entry, _, rfl⟩ := List.mem_map.mp hname
    exact List.mem_toFinset.mpr (mem_kindNames _)
  calc (h.census.map Prod.snd).sum
      = (kindNames.map names.count).sum := hdrop kindNames
    _ = ∑ name ∈ kindNames.toFinset, (names : Multiset String).count name := by
        simp only [List.sum_toFinset _ nodup_kindNames, Multiset.coe_count]
    _ = names.length := Multiset.sum_count_eq_card hall
    _ = h.blocks.length := List.length_map _

/-! ## Counts of a collection -/

/-- The report of a collection that its heaps bear out. -/
structure Balanced (h : Heap) (starts : List Value) (report : CycleReport) (h' : Heap) : Prop where
  marked_eq : report.marked = (h.heldBlocks starts).length
  freedObjects_eq : report.freedObjects = (h.garbage starts).length
  marked_add_freedObjects : report.marked + report.freedObjects = h.blocks.length
  liveObjects_eq : report.liveObjects = report.marked ∧ h'.liveObjects = report.marked
  freedBytes_eq : report.freedBytes = bytesIn (h.garbage starts)
  freeBytes_eq : report.freeBytes = h.freeBytes + report.freedBytes ∧
    h'.freeBytes = report.freeBytes
  lastCycle_eq : h'.lastCycle = some report

/-- What a collection frees is the bytes of the blocks that are not held. -/
theorem Collected.freeBytes_add_garbage (hc : h.Consistent 0) (hcollected : h.Collected starts h') :
    h'.freeBytes = h.freeBytes + bytesIn (h.garbage starts) := by
  have hused : h.usedBytes = bytesIn h.blocks := hc.usedBytes_eq
  have hused' : h'.usedBytes = bytesIn (h.heldBlocks starts) :=
    hcollected.consistent.usedBytes_eq.trans (hcollected.blocks_perm_heldBlocks.map _).sum_eq
  have hparted := bytesIn_heldBlocks_add_bytesIn_garbage h starts
  have htotal := hc.usedBytes_add_freeBytes
  have htotal' := hcollected.consistent.usedBytes_add_freeBytes
  have hsize : h'.settings.heapSize = h.settings.heapSize := by rw [hcollected.settings_eq]
  omega

/-- The report of a collection agrees with the heaps before and after it. -/
theorem cycle_credits {report : CycleReport} (hc : h.Consistent 0) (hlive : h.EdgesLive)
    (hregisters : ∀ v ∈ h.registers, h.contains v = true)
    (hroots : ∀ v ∈ roots, h.contains v = true) (hawaited : ∀ v ∈ awaited, h.contains v = true)
    (hcycle : h.cycle roots awaited = .ok (report, h')) :
    h'.liveObjects + report.freedObjects = h.liveObjects ∧
      report.freeBytes = h.freeBytes + report.freedBytes ∧ h'.freeBytes = report.freeBytes ∧
      h'.lastCycle = some report := by
  obtain ⟨m, s, _, hsweep, hs, hparts⟩ := cycle_parts hc hlive hregisters hroots hawaited
  cases hparts.symm.trans hcycle
  refine ⟨?_, sweep_credits hsweep, rfl, rfl⟩
  have hcount := hs.count_eq
  dsimp only
  omega

/-- A cycle gives back just the bytes of the garbage, and reports them. -/
theorem cycle_balanced [Digest] (hs : h.Sound admits 0) (hroots : ∀ v ∈ roots, h.contains v = true)
    (hawaited : ∀ v ∈ awaited, h.contains v = true) :
    ∃ report h', h.cycle roots awaited = .ok (report, h') ∧
      h.Balanced (roots ++ awaited) report h' := by
  have hc := hs.consistent
  have hlive := hs.coherent.edgesLive
  have hregisters (v : Value) (hv : v ∈ h.registers) := (hs.coherent.registers_usable v hv).1
  obtain ⟨report, h', hcycle, hcollected⟩ := cycle_spec hc hlive hregisters hroots hawaited
  obtain ⟨hmarked, hcount⟩ := cycle_tally hc hlive hregisters hroots hawaited hcycle
  obtain ⟨hfreed, hcredit, hfree, hlast⟩ :=
    cycle_credits hc hlive hregisters hroots hawaited hcycle
  have hbefore : h.liveObjects = h.blocks.length := hc.wellFormed.liveObjects_eq
  have hafter : h'.liveObjects = (h.heldBlocks (roots ++ awaited)).length :=
    hcollected.consistent.wellFormed.liveObjects_eq.trans
      hcollected.blocks_perm_heldBlocks.length_eq
  have hparted := (heldBlocks_append_garbage_perm h (roots ++ awaited)).length_eq
  rw [List.length_append] at hparted
  have hbytes := hcollected.freeBytes_add_garbage hc
  refine ⟨report, h', hcycle, ?_, ?_, ?_, ⟨?_, ?_⟩, ?_, ⟨hcredit, hfree⟩, hlast⟩ <;> omega

/-- In every state the bytes in use and the free ones make up the arena, the former are those of
the blocks, the census counts each block once, and no free extent is longer than all of them
together. From there a collection ends, be it asked for or for want of room, and its report is
balanced. -/
theorem Reachable.statistics_balance [Digest] (hr : h.Reachable admits) :
    h.usedBytes + h.freeBytes = h.settings.heapSize ∧
    h.usedBytes = bytesIn h.blocks ∧
    (h.census.map Prod.snd).sum = h.liveObjects ∧
    h.arena.largest ≤ h.freeBytes ∧
    ∀ roots awaited, (∀ v ∈ roots, h.contains v = true) → (∀ v ∈ awaited, h.contains v = true) →
      ∃ report h', h.cycle roots awaited = .ok (report, h') ∧
        (awaited = [] → collect roots h = .ok report h') ∧
        h.Balanced (roots ++ awaited) report h' := by
  have hc := hr.sound.consistent
  refine ⟨hc.usedBytes_add_freeBytes, hc.usedBytes_eq,
    (sum_census h).trans hc.wellFormed.liveObjects_eq.symm, hc.largest_le_freeBytes,
    fun roots awaited hroots hawaited => ?_⟩
  obtain ⟨report, h', hcycle, hbalanced⟩ := cycle_balanced hr.sound hroots hawaited
  refine ⟨report, h', hcycle, ?_, hbalanced⟩
  rintro rfl
  exact collect_eq hcycle

/-- Of the two blocks, the list is marked and the sixteen bytes of the integer are freed. -/
theorem statistics_balance_cramped : ∃ report h',
    collect [Value.ofSlot 0] cramped = .ok report h' ∧
      (cramped.heldBlocks [Value.ofSlot 0]).length = 1 ∧
      bytesIn (cramped.garbage [Value.ofSlot 0]) = 16 ∧ report.freeBytes = 120 ∧
      (cramped.census.map Prod.snd).sum = 2 := by
  obtain ⟨_, _, hcensus, _, hcollections⟩ := (reachable_cramped fun _ => True).statistics_balance
  obtain ⟨report, h', hcycle, hcollect, hbalanced⟩ :=
    hcollections [Value.ofSlot 0] [] (by decide) (by decide)
  have hreport : (cramped.cycle [Value.ofSlot 0] []).map Prod.fst =
      .ok ⟨1, 1, 16, 0, 1, 120⟩ := by cbv
  rw [hcycle] at hreport
  cases hreport
  rw [List.append_nil] at hbalanced
  exact ⟨_, h', hcollect rfl, hbalanced.marked_eq.symm, hbalanced.freedBytes_eq.symm, rfl, hcensus⟩

end Heap

end ObjectHeap
