import Mathlib.Data.Set.Card
import ObjectHeap.Proofs.FirstFit
import ObjectHeap.Proofs.Runs

/-! # Room for a block

Neighbours in the free list do not touch, so a run of free bytes lies within one free extent. An
allocation therefore succeeds exactly if there is a run that is long enough: one that is free as
things stand, or else one that is left by the blocks which a collection keeps. What a refusal
reports is how things stand after that collection.
-/

namespace ObjectHeap

namespace Heap

variable {admits : Value → Prop} {h h' : Heap} {roots awaited starts : List Value} {size : Nat}

/-! ## What the blocks that are kept leave -/

/-- Whether a byte of the arena belongs to no block that is held. -/
def Spare (h : Heap) (starts : List Value) (byte : Nat) : Prop :=
  byte < h.settings.heapSize ∧ ∀ slot block, h.block? slot = some block → h.Held starts slot →
    ¬ (block.header.extent.offset ≤ byte ∧ byte < block.header.extent.stop)

/-- Whether there is a run of spare bytes of some length. -/
def SpareRun (h : Heap) (starts : List Value) (n : Nat) : Prop :=
  ∃ start, ∀ byte, start ≤ byte → byte < start + n → h.Spare starts byte

/-- The free bytes are those that no block owns. -/
theorem Consistent.mem_bytes_iff (hc : h.Consistent 0) {byte : Nat} :
    byte ∈ h.arena.bytes ↔ byte < h.settings.heapSize ∧ ∀ slot block,
      h.block? slot = some block →
        ¬ (block.header.extent.offset ≤ byte ∧ byte < block.header.extent.stop) := by
  have hwf := hc.wellFormed
  constructor
  · intro hfree
    obtain ⟨e, he, hbyte⟩ := mem_bytesOf.mp hfree
    rw [Extent.mem_bytes] at hbyte
    refine ⟨(hwf.covers byte).mp ⟨e, mem_extents.mpr (Or.inr he), hbyte⟩, ?_⟩
    intro slot block hblock howned
    have hlen := (hc.proper slot block hblock).le_len
    have hdisjoint := (Sweep.extent_apart ((add_assoc _ _ _).symm.trans hc.tiles)
      (block?_eq_some_iff.mp hblock) (by omega)).2
    rw [add_zero] at hdisjoint
    exact Multiset.disjoint_left.mp hdisjoint (Extent.mem_bytes.mpr howned) hfree
  · rintro ⟨hlt, hunowned⟩
    obtain ⟨e, he, hbyte⟩ := (hwf.covers byte).mpr hlt
    rcases mem_extents.mp he with ⟨slot, block, hblock, rfl⟩ | hfree
    · exact absurd hbyte (hunowned slot block hblock)
    · exact mem_bytesOf.mpr ⟨e, hfree, Extent.mem_bytes.mpr hbyte⟩

/-- The spare bytes are those that are free after a collection. -/
theorem Collected.spare_iff (hcollected : h.Collected starts h') {byte : Nat} :
    h.Spare starts byte ↔ byte ∈ h'.arena.bytes := by
  rw [hcollected.consistent.mem_bytes_iff, hcollected.settings_eq, Spare]
  refine and_congr_right fun _ => forall₂_congr fun slot block => ?_
  rw [hcollected.block?_iff, and_imp]

theorem Collected.spareRun_iff (hcollected : h.Collected starts h') {n : Nat} (hn : 0 < n) :
    h.SpareRun starts n ↔ h'.arena.Offers n := by
  simp only [SpareRun, hcollected.spare_iff]
  exact hcollected.consistent.tidy.exists_run_iff hn

theorem Collected.isGreatest_largest (hcollected : h.Collected starts h') :
    IsGreatest { n | h.SpareRun starts n } h'.arena.largest := by
  simp only [SpareRun, hcollected.spare_iff]
  exact hcollected.consistent.tidy.isGreatest_largest

theorem Collected.freeBytes_eq (hcollected : h.Collected starts h') :
    h'.arena.freeBytes = { byte | h.Spare starts byte }.ncard := by
  have hc := hcollected.consistent
  have hnodup : h'.arena.bytes.Nodup := by
    have htiles := hc.tiles
    rw [add_zero] at htiles
    exact (Multiset.nodup_add.mp (htiles ▸ Multiset.nodup_range _)).2.1
  have hset : { byte | h.Spare starts byte } = (h'.arena.bytes.toFinset : Set Nat) := by
    ext byte
    simp [hcollected.spare_iff]
  rw [hset, Set.ncard_coe_finset, Multiset.toFinset_card_of_nodup hnodup,
    hc.tidy.freeBytes_eq_card]

/-! ## Reserving -/

/-- What a reservation leaves of a heap in which no byte was loose. -/
structure Carved (h : Heap) (size : Nat) (extent : Extent) (h' : Heap) : Prop where
  eq : ∃ arena, h' = { h with arena }
  consistent : h'.Consistent extent.bytes
  len_eq : extent.len = size
  aligned : extent.Aligned

/-- Bytes can be reserved without a collection exactly if a free extent has them. -/
theorem tryReserve_settles (hc : h.Consistent 0) (hsize : 8 ∣ size) (hpos : 0 < size)
    {R : Refusal → Heap → Prop} :
    Yields admits (tryReserve size) h
      (fun found h' =>
        (∃ extent, found = some extent ∧ h.arena.Offers size ∧ h.Carved size extent h') ∨
          found = none ∧ ¬ h.arena.Offers size ∧ h' = h) R := by
  refine Yields.get ?_
  rcases Arena.reserve_cases hc.tidy hc.heapSize_lt size with
    ⟨hnone, hshort⟩ | ⟨_, before, e, after, hextents, _, hle, _⟩
  · refine Yields.look_eq hnone (Yields.pure (Or.inr ⟨rfl, ?_, rfl⟩))
    rintro ⟨e, he, hle⟩
    have hlt := hshort.resolve_left (Nat.ne_of_gt hpos) e he
    omega
  · have hoffers : h.arena.Offers size := ⟨e, by simp [hextents], hle⟩
    rcases Arena.reserve_spec hc.tidy hc.heapSize_lt size with
      ⟨_, hzero | hshort⟩ | ⟨taken, left, hsome, hr⟩
    · omega
    · have hlt := hshort e (by simp [hextents])
      omega
    · refine Yields.look_eq hsome (Yields.set_bind (Yields.pure (Or.inl ⟨taken, rfl, hoffers,
        ⟨left, rfl⟩, hc.reserve hsize hr, hr.len_eq, (hr.aligned hsize hc.free_aligned).1⟩)))

section Reserving

variable (hc : h.Consistent 0) (hlive : h.EdgesLive)
  (hregisters : ∀ v ∈ h.registers, h.contains v = true)
  (hroots : ∀ v ∈ roots, h.contains v = true)

include hc hlive hregisters hroots

/-- A reservation collects at most once, and is refused only if there is no room after that. -/
theorem reserve_settles (hawaited : ∀ v ∈ awaited, h.contains v = true) (hsize : 8 ∣ size)
    (hpos : 0 < size) :
    Yields admits (reserve roots size awaited) h
      (fun extent h' => h.arena.Offers size ∧ h.Carved size extent h' ∨
        ¬ h.arena.Offers size ∧ size ≤ h.settings.heapSize ∧ ∃ collected,
          h.Collected (roots ++ awaited) collected ∧ collected.arena.Offers size ∧
            collected.Carved size extent h')
      (fun refusal h' => ¬ h.arena.Offers size ∧
        (h.settings.heapSize < size ∧ refusal = h.outOfMemory size ∧ h' = h ∨
          size ≤ h.settings.heapSize ∧ h.Collected (roots ++ awaited) h' ∧
            ¬ h'.arena.Offers size ∧ refusal = h'.outOfMemory size)) := by
  refine Yields.bind (tryReserve_settles hc hsize hpos) fun found h₁ hfound => ?_
  rcases hfound with ⟨extent, rfl, hoffers, hcarved⟩ | ⟨rfl, hshort, rfl⟩
  · exact Yields.pure (Or.inl ⟨hoffers, hcarved⟩)
  · refine Yields.get ?_
    dsimp only
    split
    next hlarge => exact Yields.throw_bind ⟨hshort, Or.inl ⟨hlarge, rfl, rfl⟩⟩
    next hsmall =>
      have hsmall := Nat.le_of_not_lt hsmall
      obtain ⟨report, collected, hcycle, hcollected⟩ :=
        cycle_spec hc hlive hregisters hroots hawaited
      refine Yields.look_eq hcycle (Yields.set_bind (Yields.bind
        (tryReserve_settles hcollected.consistent hsize hpos) fun found h₂ hfound => ?_))
      rcases hfound with ⟨extent, rfl, hoffers, hcarved⟩ | ⟨rfl, hshort', rfl⟩
      · exact Yields.pure (Or.inr ⟨hshort, hsmall, collected, hcollected, hoffers, hcarved⟩)
      · exact Yields.throw ⟨hshort, Or.inr ⟨hsmall, hcollected, hshort', rfl⟩⟩

end Reserving

/-! ## Allocating -/

/-- A new block in a slot, beside those of the blocks before that stay. -/
structure Lodged (h : Heap) (kind : Kind) (body : Body) (stays : Nat → Prop) (slot : Nat)
    (h' : Heap) : Prop where
  block : ∃ b, h'.block? slot = some b ∧ b.header.kind = kind ∧ b.body = body ∧
    b.header.size = body.blockSize
  vacated : ∀ b, h.block? slot = some b → ¬ stays slot
  others : ∀ s b, s ≠ slot → (h'.block? s = some b ↔ h.block? s = some b ∧ stays s)
  registers_eq : h'.registers = h.registers

/-- A block is installed beside the blocks of a heap of which some were given up. -/
theorem Installed.lodged {mid : Heap} {block : Block} {slot : Nat} {stays : Nat → Prop}
    (hi : mid.Installed block slot h') (hsize : block.header.size = block.body.blockSize)
    (hblocks : ∀ s b, mid.block? s = some b ↔ h.block? s = some b ∧ stays s)
    (hregisters : mid.registers = h.registers) :
    h.Lodged block.header.kind block.body stays slot h' where
  block := ⟨block, hi.writes.block?_slot, rfl, rfl, hsize⟩
  vacated b hb hstays := by
    have hmid := (hblocks slot b).mpr ⟨hb, hstays⟩
    rw [hi.free] at hmid
    cases hmid
  others s b hs := by rw [hi.writes.block?_other s hs, hblocks]
  registers_eq := hi.writes.registers_eq.trans hregisters

variable {kind : Kind} {body : Body}

/-- What was reserved can always be made a block. -/
theorem Carved.install {mid : Heap} {extent : Extent} {stays : Nat → Prop}
    {R : Refusal → Heap → Prop} (hcarved : mid.Carved body.blockSize extent h')
    (hfits : body.fits kind = true)
    (hblocks : ∀ s b, mid.block? s = some b ↔ h.block? s = some b ∧ stays s)
    (hregisters : mid.registers = h.registers) :
    Yields admits (do Heap.install ⟨← Header.new kind extent, body⟩) h' (fun v h'' =>
      ∃ slot, v = Value.ofSlot slot ∧ h''.collections = mid.collections ∧
        h.Lodged kind body stays slot h'') R := by
  let block : Block := ⟨{ kind, color := .white, pinned := false, extent }, body⟩
  have hheader : Header.new kind extent = .ok block.header := by
    rw [Header.new, kind_not_inline hfits]
    rfl
  have hproper : block.Proper := ⟨hfits, hcarved.len_eq, hcarved.aligned, rfl⟩
  have hloose : h'.Consistent block.header.extent.bytes := hcarved.consistent
  obtain ⟨slot, h'', hinstall, hi⟩ := install_spec hloose hproper
  obtain ⟨arena, rfl⟩ := hcarved.eq
  refine Yields.look_eq hheader (Yields.of_ok hinstall ⟨slot, rfl, hi.writes.collections_eq, ?_⟩)
  exact hi.lodged hcarved.len_eq hblocks hregisters

/-- How an allocation ends: with the block beside all others if there was room, or beside those
that a collection has left if it made room, and else refused. -/
theorem allocate_settles (hc : h.Consistent 0) (hlive : h.EdgesLive)
    (hregisters : ∀ v ∈ h.registers, h.contains v = true)
    (hroots : ∀ v ∈ roots, h.contains v = true) (hfits : body.fits kind = true)
    (hedges : ∀ v ∈ body.edges, h.contains v = true) :
    Yields admits (allocate roots kind body) h
      (fun v h' => ∃ slot, v = Value.ofSlot slot ∧
        (h.arena.Offers body.blockSize ∧ h'.collections = h.collections ∧
            h.Lodged kind body (fun _ => True) slot h' ∨
          ¬ h.arena.Offers body.blockSize ∧ body.blockSize ≤ h.settings.heapSize ∧
            h.SpareRun (roots ++ body.edges) body.blockSize ∧
            h'.collections = h.collections + 1 ∧
            h.Lodged kind body (h.Held (roots ++ body.edges)) slot h'))
      (fun refusal h' => ¬ h.arena.Offers body.blockSize ∧
        (h.settings.heapSize < body.blockSize ∧ refusal = h.outOfMemory body.blockSize ∧ h' = h ∨
          body.blockSize ≤ h.settings.heapSize ∧
            ¬ h.SpareRun (roots ++ body.edges) body.blockSize ∧
            h.Collected (roots ++ body.edges) h' ∧
            refusal = h'.outOfMemory body.blockSize)) := by
  have hpos : 0 < body.blockSize := Nat.lt_of_lt_of_le (by decide) body.le_blockSize
  refine Yields.look_eq (a := ()) (require_eq_ok_iff.mpr hfits) ?_
  refine Yields.bind ((reserve_settles hc hlive hregisters hroots hedges body.eight_dvd_blockSize
    hpos).mono (fun _ _ hok => hok) ?_) fun extent mid hmid => ?_
  · rintro refusal h' ⟨hshort, hlarge | ⟨hsmall, hcollected, hshort', hrefusal⟩⟩
    · exact ⟨hshort, Or.inl hlarge⟩
    · rw [← hcollected.spareRun_iff hpos] at hshort'
      exact ⟨hshort, Or.inr ⟨hsmall, hshort', hcollected, hrefusal⟩⟩
  · rcases hmid with ⟨hoffers, hcarved⟩ |
      ⟨hshort, hsmall, collected, hcollected, hoffers, hcarved⟩
    · refine (hcarved.install hfits (fun s b => (and_iff_left trivial).symm) rfl).mono ?_
        fun _ _ hrefused => hrefused
      rintro v h' ⟨slot, hv, hcount, hlodged⟩
      exact ⟨slot, hv, Or.inl ⟨hoffers, hcount, hlodged⟩⟩
    · refine (hcarved.install hfits hcollected.block?_iff hcollected.registers_eq).mono ?_
        fun _ _ hrefused => hrefused
      rintro v h' ⟨slot, hv, hcount, hlodged⟩
      rw [← hcollected.spareRun_iff hpos] at hoffers
      exact ⟨slot, hv, Or.inr ⟨hshort, hsmall, hoffers, hcount.trans hcollected.collections_eq,
        hlodged⟩⟩

/-- An allocation succeeds exactly if it can. If a free extent is long enough, there is no
collection and every block stays. If the block is larger than the arena, nothing changes. Else
there is one collection, and it depends on the longest run of bytes that the blocks it keeps
leave; a refusal reports that run, and how many bytes they leave altogether. -/
theorem Reachable.allocate_iff_room [Digest] (hr : h.Reachable admits)
    (hroots : ∀ v ∈ roots, h.contains v = true) (hfits : body.fits kind = true)
    (hedges : ∀ v ∈ body.edges, h.contains v = true) :
    (h.arena.Offers body.blockSize → ∃ slot h',
      allocate roots kind body h = .ok (Value.ofSlot slot) h' ∧
        h'.collections = h.collections ∧ h.Lodged kind body (fun _ => True) slot h') ∧
    (¬ h.arena.Offers body.blockSize → h.settings.heapSize < body.blockSize →
      allocate roots kind body h =
        .error (.refused (.outOfMemory body.blockSize h.arena.freeBytes h.arena.largest)) h) ∧
    (¬ h.arena.Offers body.blockSize → body.blockSize ≤ h.settings.heapSize →
      (h.SpareRun (roots ++ body.edges) body.blockSize → ∃ slot h',
        allocate roots kind body h = .ok (Value.ofSlot slot) h' ∧
          h'.collections = h.collections + 1 ∧
          h.Lodged kind body (h.Held (roots ++ body.edges)) slot h') ∧
      (¬ h.SpareRun (roots ++ body.edges) body.blockSize → ∃ free largest h',
        allocate roots kind body h =
            .error (.refused (.outOfMemory body.blockSize free largest)) h' ∧
          h'.collections = h.collections + 1 ∧ h'.registers = h.registers ∧
          (∀ slot block, h'.block? slot = some block ↔
            h.block? slot = some block ∧ h.Held (roots ++ body.edges) slot) ∧
          free = { byte | h.Spare (roots ++ body.edges) byte }.ncard ∧
          IsGreatest { n | h.SpareRun (roots ++ body.edges) n } largest)) := by
  have hs := hr.sound
  have hyields : Yields (fun _ => False) (allocate roots kind body) h _ _ :=
    allocate_settles hs.consistent hs.coherent.edgesLive
      (fun v hv => (hs.coherent.registers_usable v hv).1) hroots hfits hedges
  rcases hyields.ok_or_refused with
    ⟨v, h', hok, slot, rfl, ⟨hoffers, hcount, hlodged⟩ | ⟨hshort, hsmall, hrun, hcount, hlodged⟩⟩ |
    ⟨refusal, h', herror, hshort, ⟨hlarge, rfl, rfl⟩ | ⟨hsmall, hrun, hcollected, rfl⟩⟩
  · exact ⟨fun _ => ⟨slot, h', hok, hcount, hlodged⟩, fun hshort => absurd hoffers hshort,
      fun hshort => absurd hoffers hshort⟩
  · refine ⟨fun hoffers => absurd hoffers hshort, fun _ hlarge => ?_, fun _ _ =>
      ⟨fun _ => ⟨slot, h', hok, hcount, hlodged⟩, fun hnone => absurd hrun hnone⟩⟩
    omega
  · refine ⟨fun hoffers => absurd hoffers hshort, fun _ _ => herror, fun _ hsmall => ?_⟩
    omega
  · refine ⟨fun hoffers => absurd hoffers hshort, fun _ hlarge => ?_, fun _ _ =>
      ⟨fun hsome => absurd hsome hrun, fun _ => ⟨_, _, h', herror, hcollected.collections_eq,
        hcollected.registers_eq, hcollected.block?_iff, hcollected.freeBytes_eq,
        hcollected.isGreatest_largest⟩⟩⟩
    omega

theorem spare_cramped_iff {byte : Nat} :
    cramped.Spare [Value.ofSlot 0] byte ↔ 24 ≤ byte ∧ byte < 144 := by
  constructor
  · rintro ⟨hlt, hunowned⟩
    have hlist := hunowned 0 _ rfl (.start List.mem_cons_self rfl)
    exact ⟨Nat.le_of_not_lt fun hbyte => hlist ⟨Nat.zero_le _, hbyte⟩, hlt⟩
  · rintro ⟨hle, hlt⟩
    refine ⟨hlt, fun slot block hblock hheld howned => ?_⟩
    obtain rfl := eq_zero_of_held_cramped hheld
    cases hblock
    exact Nat.not_lt.mpr hle howned.2

theorem spareRun_cramped_iff {n : Nat} : cramped.SpareRun [Value.ofSlot 0] n ↔ n ≤ 120 := by
  simp only [SpareRun, spare_cramped_iff]
  constructor
  · rintro ⟨start, hrun⟩
    by_contra hlong
    have hfirst := hrun start (Nat.le_refl _) (by omega)
    have hlast := hrun (start + n - 1) (by omega) (by omega)
    omega
  · intro hn
    exact ⟨24, fun byte hle hlt => ⟨hle, by omega⟩⟩

/-- A list of one item, the list of the sample, with room for more. -/
def around (more : Nat) : Body := .objects ⟨#[Value.ofSlot 0] ++ Array.replicate more Value.nil, 1⟩

/-- Only the payload at hand refers to the list, and its block is kept. The bytes of the integer
make room for eleven items more, but not for thirteen. -/
theorem allocate_iff_room_cramped :
    (∃ slot h', allocate [] .list (around 11) cramped =
        .ok (Value.ofSlot slot) h' ∧ slot ≠ 0 ∧ h'.block? 0 = cramped.block? 0 ∧
      h'.collections = 1) ∧
    ∃ h', allocate [] .list (around 13) cramped =
        .error (.refused (.outOfMemory 128 120 120)) h' ∧ h'.block? 0 = cramped.block? 0 ∧
      h'.block? 1 = none := by
  have hedges : ∀ v ∈ [Value.ofSlot 0], cramped.contains v = true := by decide
  have hheld : cramped.Held [Value.ofSlot 0] 0 := .start List.mem_cons_self rfl
  have hshort {n : Nat} (hn : 104 < n) : ¬ cramped.arena.Offers n := by
    rintro ⟨e, he, hle⟩
    cases List.mem_singleton.mp he
    exact Nat.not_le.mpr hn hle
  constructor
  · obtain ⟨_, _, hcollects⟩ := (reachable_cramped fun _ => True).allocate_iff_room
      (List.forall_mem_nil _) (show (around 11).fits .list = true from rfl) hedges
    obtain ⟨slot, h', hok, hcount, hlodged⟩ :=
      (hcollects (hshort (by decide)) (by decide)).1 (spareRun_cramped_iff.mpr (by decide))
    have hother : slot ≠ 0 := by
      rintro rfl
      exact hlodged.vacated _ rfl hheld
    exact ⟨slot, h', hok, hother, (hlodged.others 0 _ hother.symm).mpr ⟨rfl, hheld⟩, hcount⟩
  · obtain ⟨_, _, hcollects⟩ := (reachable_cramped fun _ => True).allocate_iff_room
      (List.forall_mem_nil _) (show (around 13).fits .list = true from rfl) hedges
    obtain ⟨free, largest, h', herror, _, _, hblocks, hfree, hlargest⟩ :=
      (hcollects (hshort (by decide)) (by decide)).2 (mt spareRun_cramped_iff.mp (by decide))
    have hlargest : largest = 120 := hlargest.unique
      ⟨spareRun_cramped_iff.mpr (Nat.le_refl _), fun _ => spareRun_cramped_iff.mp⟩
    have hfree : free = 120 := by
      have hbytes : { byte | cramped.Spare [Value.ofSlot 0] byte } = Finset.Ico 24 144 := by
        ext byte
        simp [spare_cramped_iff]
      rw [hfree]
      exact (congrArg Set.ncard hbytes).trans (Set.ncard_coe_finset _)
    have hgone : h'.block? 1 = none := Option.eq_none_iff_forall_ne_some.mpr fun block hblock =>
      absurd (eq_zero_of_held_cramped ((hblocks 1 block).mp hblock).2) (by decide)
    rw [hlargest, hfree] at herror
    exact ⟨h', herror, (hblocks 0 _).mpr ⟨rfl, hheld⟩, hgone⟩

end Heap

end ObjectHeap
