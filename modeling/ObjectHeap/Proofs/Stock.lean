import Mathlib.Data.List.Perm.Subperm
import ObjectHeap.Proofs.SequenceRuns

/-! # Stock

A program that builds something out of blocks knows where they are and what they hold. The blocks
that it knows of are its *stock*. As long as its starting values hold the stock, collections leave
it alone: an allocation adds a block to it, and an edit changes one. When the stock is all that the
starting values hold, a collection leaves nothing else, so that the numbers of blocks and bytes in
use are those of the stock.
-/

namespace ObjectHeap

/-- A block that is known: its slot, its kind and its payload. -/
structure Part where
  slot : Nat
  kind : Kind
  body : Body

namespace Part

def size (p : Part) : Nat := p.body.blockSize

/-- The block of a text. -/
def text (slot : Nat) (text : String) : Part :=
  ⟨slot, .string, .bytes (BoundedSeq.filled text.toUTF8.data)⟩

/-- Whether a heap has the block. -/
def In (p : Part) (h : Heap) : Prop :=
  ∃ block, h.block? p.slot = some block ∧ block.header.kind = p.kind ∧ block.body = p.body

end Part

/-- Whether no value refers to anything but some blocks. -/
def Confines (parts : List Part) (values : List Value) : Prop :=
  ∀ v ∈ values, ∀ slot, v.slot? = some slot → slot ∈ parts.map Part.slot

/-- Blocks that belong together: they are what can be reached from a value, in every heap that has
them. -/
structure Cluster (v : Value) (parts : List Part) : Prop where
  root : ∃ slot, v.slot? = some slot ∧ slot ∈ parts.map Part.slot
  closed : ∀ p ∈ parts, Confines parts p.body.edges
  held : ∀ h : Heap, (∀ p ∈ parts, p.In h) → ∀ p ∈ parts, h.Held [v] p.slot

theorem Confines.mono {parts parts' : List Part} {values : List Value} (h : Confines parts values)
    (hsub : ∀ p ∈ parts, p ∈ parts') : Confines parts' values := by
  intro v hv slot hslot
  obtain ⟨p, hp, hpart⟩ := List.mem_map.mp (h v hv slot hslot)
  exact List.mem_map.mpr ⟨p, hsub p hp, hpart⟩

/-- A block and the clusters of what it refers to are a cluster. -/
theorem Cluster.node {v : Value} {slot : Nat} {kind : Kind} {body : Body}
    (items : List (Value × List Part)) (hslot : v.slot? = some slot)
    (hclusters : ∀ item ∈ items, Cluster item.1 item.2)
    (hitems : ∀ item ∈ items, item.1 ∈ body.edges)
    (hedges : ∀ w ∈ body.edges, w.slot? = none ∨ ∃ item ∈ items, item.1 = w) :
    Cluster v (⟨slot, kind, body⟩ :: items.flatMap Prod.snd) := by
  have hsub (item : Value × List Part) (hitem : item ∈ items) :
      ∀ p ∈ item.2, p ∈ (⟨slot, kind, body⟩ :: items.flatMap Prod.snd : List Part) := fun p hp =>
    List.mem_cons_of_mem _ (List.mem_flatMap.mpr ⟨item, hitem, hp⟩)
  refine ⟨⟨slot, hslot, List.mem_cons_self⟩, fun p hp => ?_, fun h hpresent p hp => ?_⟩
  · rcases List.mem_cons.mp hp with rfl | hp
    · intro w hw s hs
      rcases hedges w hw with hnone | ⟨item, hitem, rfl⟩
      · rw [hnone] at hs
        cases hs
      · obtain ⟨s', hs', hmem⟩ := (hclusters item hitem).root
        cases hs'.symm.trans hs
        obtain ⟨q, hq, hpart⟩ := List.mem_map.mp hmem
        exact List.mem_map.mpr ⟨q, hsub item hitem q hq, hpart⟩
    · obtain ⟨item, hitem, hp⟩ := List.mem_flatMap.mp hp
      exact ((hclusters item hitem).closed p hp).mono (hsub item hitem)
  · rcases List.mem_cons.mp hp with rfl | hp
    · exact .start (List.mem_singleton.mpr rfl) hslot
    · obtain ⟨item, hitem, hp⟩ := List.mem_flatMap.mp hp
      have hheld :=
        (hclusters item hitem).held h (fun q hq => hpresent q (hsub item hitem q hq)) p hp
      refine hheld.mono fun w hw next hnext => ?_
      rw [List.mem_singleton.mp hw] at hnext
      -- the value of the inner cluster is an edge of the block
      obtain ⟨block, hblock, _, hbody⟩ := hpresent _ List.mem_cons_self
      exact (Heap.Held.start (List.mem_singleton.mpr rfl) hslot).edge hblock
        (hbody ▸ hitems item hitem) hnext

/-- A block that refers to no other is a cluster. -/
theorem Cluster.leaf {v : Value} {slot : Nat} {kind : Kind} {body : Body}
    (hslot : v.slot? = some slot) (hedges : ∀ w ∈ body.edges, w.slot? = none) :
    Cluster v [⟨slot, kind, body⟩] :=
  Cluster.node [] hslot (by simp) (by simp) fun w hw => Or.inl (hedges w hw)

namespace Heap

variable {h h' : Heap} {settings : Settings} {starts roots : List Value} {parts : List Part}
  {slot : Nat} {kind : Kind} {body body' : Body} {v : Value}

/-! ## Blocks and bytes in use -/

theorem mem_blocks {entry : Nat × Block} :
    entry ∈ h.blocks ↔ h.block? entry.1 = some entry.2 := by
  simp only [blocks, List.mem_filterMap, Prod.exists, List.mem_zipIdx_iff_getElem?,
    Array.getElem?_toList, Option.map_eq_some_iff, block?_eq_some_iff]
  constructor
  · rintro ⟨content, slot, hslot, block, rfl, rfl⟩
    exact hslot
  · intro hslot
    exact ⟨some entry.2, entry.1, hslot, entry.2, rfl, rfl⟩

theorem nodup_blocks (h : Heap) : (h.blocks.map Prod.fst).Nodup := by
  have hzip (contents : List (Option Block)) (first : Nat) :
      (((contents.zipIdx first).filterMap fun entry => entry.1.map (entry.2, ·)).map
        Prod.fst).Sublist (List.range' first contents.length) := by
    induction contents generalizing first with
    | nil => exact List.Sublist.refl _
    | cons content rest ih =>
        cases content with
        | none => exact (ih (first + 1)).cons first
        | some block => exact (ih (first + 1)).cons_cons first
  exact (hzip h.slots.toList 0).nodup List.nodup_range'

/-- The bytes in use are those of the blocks. -/
theorem Consistent.usedBytes_eq (hc : h.Consistent 0) :
    h.usedBytes = (h.blocks.map fun entry => entry.2.body.blockSize).sum := by
  have htiles := congrArg Multiset.card hc.tiles
  rw [add_zero, ← bytesOf_extents, Arena.card_bytesOf, Multiset.card_range, extents,
    List.map_append, List.sum_append, ← hc.tidy.freeBytes_eq, List.map_map] at htiles
  have hsizes : h.blocks.map (Extent.len ∘ fun entry => entry.2.header.extent) =
      h.blocks.map fun entry => entry.2.body.blockSize :=
    List.map_congr_left fun entry hentry => (hc.proper _ _ (mem_blocks.mp hentry)).size_eq
  rw [hsizes] at htiles
  rw [usedBytes]
  omega

/-- A heap that has some blocks and no others is made up of them. -/
theorem blocks_perm (hpresent : ∀ p ∈ parts, p.In h) (hnodup : (parts.map Part.slot).Nodup)
    (hall : ∀ slot block, h.block? slot = some block → slot ∈ parts.map Part.slot) :
    (h.blocks.map fun entry => (entry.1, entry.2.body.blockSize)).Perm
      (parts.map fun p => (p.slot, p.size)) := by
  refine (List.perm_ext_iff_of_nodup (.of_map Prod.fst ?_) (.of_map Prod.fst ?_)).mpr
    fun entry => ?_
  · rw [List.map_map]
    exact nodup_blocks h
  · rw [List.map_map]
    exact hnodup
  · simp only [List.mem_map]
    constructor
    · rintro ⟨⟨slot, block⟩, hentry, rfl⟩
      have hblock := mem_blocks.mp hentry
      obtain ⟨p, hp, rfl⟩ := List.mem_map.mp (hall slot block hblock)
      obtain ⟨found, hfound, _, hbody⟩ := hpresent p hp
      cases hblock.symm.trans hfound
      exact ⟨p, hp, by rw [Part.size, hbody]⟩
    · rintro ⟨p, hp, rfl⟩
      obtain ⟨block, hblock, _, hbody⟩ := hpresent p hp
      exact ⟨(p.slot, block), mem_blocks.mpr hblock, by rw [Part.size, hbody]⟩

variable [Digest]

/-- The state of a heap without registers and pins in which some starting values hold a stock of
blocks. -/
structure Stocks (h : Heap) (settings : Settings) (starts : List Value) (parts : List Part) :
    Prop where
  sound : h.Sound (fun _ => False) 0
  settings_eq : h.settings = settings
  registers_eq : h.registers = #[]
  unpinned : ∀ slot block, h.block? slot = some block → block.header.pinned = false
  usable : ∀ v ∈ starts, h.Usable (fun _ => False) v
  present : ∀ p ∈ parts, p.In h
  held : ∀ p ∈ parts, h.Held starts p.slot
  nodup : (parts.map Part.slot).Nodup

section Steps

variable (hs : h.Stocks settings starts parts)
include hs

theorem Stocks.not_mem_registers (w : Value) : w ∉ h.registers := by
  rw [hs.registers_eq]
  exact Array.not_mem_empty w

/-- The same stock may be held by other values. -/
theorem Stocks.restart {starts' : List Value} {parts' : List Part}
    (husable : ∀ v ∈ starts', h.Usable (fun _ => False) v) (hsub : parts'.Subperm parts)
    (hheld : ∀ p ∈ parts', h.Held starts' p.slot) : h.Stocks settings starts' parts' := by
  obtain ⟨among, hperm, hsublist⟩ := hsub
  refine ⟨hs.sound, hs.settings_eq, hs.registers_eq, hs.unpinned, husable,
    fun p hp => hs.present p (hsublist.subset (hperm.mem_iff.mpr hp)), hheld, ?_⟩
  exact (hperm.map Part.slot).nodup_iff.mp ((hsublist.map Part.slot).nodup hs.nodup)

theorem Stocks.perm {parts' : List Part} (hperm : parts'.Perm parts) :
    h.Stocks settings starts parts' :=
  hs.restart hs.usable hperm.subperm fun p hp => hs.held p (hperm.mem_iff.mp hp)

/-- A new block comes to the stock, and the value that refers to it to the starting values. -/
theorem Stocks.allocated (hnew : h.Allocated (fun _ => False) roots kind body slot h')
    (hroots : ∀ w ∈ starts, w ∈ roots) (hslot : v.slot? = some slot) :
    h'.Stocks settings (starts ++ [v]) (⟨slot, kind, body⟩ :: parts) := by
  have hmono (s : Nat) (hheld : h.Held starts s) : h.Held roots s :=
    hheld.mono fun w hw => holds_of_mem (hroots w hw)
  obtain ⟨new, hblock, hkind, hbody, hunpinned⟩ := hnew.block
  have hkept (p : Part) (hp : p ∈ parts) : p.slot ≠ slot ∧ p.In h' := by
    obtain ⟨block, hb, hpart⟩ := hs.present p hp
    obtain ⟨hne, hb'⟩ := hnew.kept p.slot block hb (hmono p.slot (hs.held p hp))
    exact ⟨hne, block, hb', hpart⟩
  refine ⟨hnew.sound, hnew.settings_eq.trans hs.settings_eq,
    hnew.registers_eq.trans hs.registers_eq, fun s block hb => ?_, fun w hw => ?_, fun p hp => ?_,
    fun p hp => ?_, ?_⟩
  · by_cases heq : s = slot
    · subst heq
      cases hb.symm.trans hblock
      exact hunpinned
    · exact hs.unpinned s block (hnew.before s block heq hb)
  · rcases List.mem_append.mp hw with hw | hw
    · exact hnew.usable (hs.usable w hw) (holds_of_mem (hroots w hw))
    · rw [List.mem_singleton.mp hw]
      exact usable_of_slot? hslot hblock
  · rcases List.mem_cons.mp hp with rfl | hp
    · exact ⟨new, hblock, hkind, hbody⟩
    · exact (hkept p hp).2
  · rcases List.mem_cons.mp hp with rfl | hp
    · exact .start List.mem_concat_self hslot
    · refine (hs.held p hp).transfer (fun w hw _ => .start (List.mem_append_left _ hw))
        (fun w hw => absurd hw (hs.not_mem_registers w)) fun s block hheld hb => ?_
      exact ⟨block, (hnew.kept s block hb (hmono s hheld)).2, rfl, fun _ hw => hw⟩
  · refine List.nodup_cons.mpr ⟨fun hmem => ?_, hs.nodup⟩
    obtain ⟨p, hp, heq⟩ := List.mem_map.mp hmem
    exact (hkept p hp).1 heq

/-- A block is allocated for the stock, or there is no memory for it. -/
theorem Stocks.allocate (ha : h.Accepts (fun _ => False) kind body) :
    Yields (fun _ => False) (Heap.allocate starts kind body) h
      (fun v h' => ∃ slot, v.slot? = some slot ∧
        h'.Stocks settings (starts ++ [v]) (⟨slot, kind, body⟩ :: parts))
      fun refusal _ => refusal.isOutOfMemory = true := by
  refine (allocate_yields hs.sound hs.usable ha).mono (fun v h' hnew => ?_) fun _ _ hd => hd.1
  obtain ⟨slot, hslot, hnew⟩ := hnew
  exact ⟨slot, hslot, hs.allocated hnew (fun w hw => List.mem_append_left _ hw) hslot⟩

end Steps

/-- A starting value that the others hold is not needed. -/
theorem Stocks.forget (hs : h.Stocks settings (starts ++ [v]) parts) (hv : h.Holds starts v) :
    h.Stocks settings starts parts := by
  refine hs.restart (fun w hw => hs.usable w (List.mem_append_left _ hw)) (List.Subperm.refl parts)
    fun p hp => (hs.held p hp).mono fun w hw => ?_
  rcases List.mem_append.mp hw with hw | hw
  · exact holds_of_mem hw
  · rwa [List.mem_singleton.mp hw]

/-- A block of the stock may get a payload that refers to more. -/
theorem Stocks.edit (hs : h.Stocks settings starts (⟨slot, kind, body⟩ :: parts))
    (he : h.Edited (fun _ => False) roots slot kind body' h') (hroots : ∀ w ∈ starts, w ∈ roots)
    (hedges : ∀ w ∈ body.edges, w ∈ body'.edges) :
    h'.Stocks settings starts (⟨slot, kind, body'⟩ :: parts) := by
  have hmono (s : Nat) (hheld : h.Held starts s) : h.Held roots s :=
    hheld.mono fun w hw => holds_of_mem (hroots w hw)
  obtain ⟨old, hold, _, rfl⟩ := hs.present _ List.mem_cons_self
  obtain ⟨new, hnew, hkind', hbody'⟩ := he.block
  have hpinned := he.pinned_eq old new hold hnew
  obtain ⟨hfresh, _⟩ := List.nodup_cons.mp hs.nodup
  -- what leads to the block still does, and so does what the block leads to
  have hheld (s : Nat) (hheld : h.Held starts s) : h'.Held starts s := by
    refine hheld.transfer (fun w hw _ => .start hw)
      (fun w hw => absurd hw (hs.not_mem_registers w)) fun s block hheld hb => ?_
    by_cases heq : s = slot
    · subst heq
      cases hb.symm.trans hold
      exact ⟨new, hnew, hpinned, fun w hw => hbody' ▸ hedges w hw⟩
    · exact ⟨block, he.kept s block hb (hmono s hheld) heq, rfl, fun _ hw => hw⟩
  refine ⟨he.sound, he.settings_eq.trans hs.settings_eq, he.registers_eq.trans hs.registers_eq,
    fun s block hb => ?_, fun w hw => he.usable (hs.usable w hw) (holds_of_mem (hroots w hw)),
    fun p hp => ?_, fun p hp => ?_, hs.nodup⟩
  · by_cases heq : s = slot
    · subst heq
      cases hb.symm.trans hnew
      exact hpinned.trans (hs.unpinned s old hold)
    · exact hs.unpinned s block ((he.block?_iff s block heq).mp hb).1
  · rcases List.mem_cons.mp hp with rfl | hp
    · exact ⟨new, hnew, hkind', hbody'⟩
    · obtain ⟨block, hb, hpart⟩ := hs.present p (List.mem_cons_of_mem _ hp)
      refine ⟨block, he.kept p.slot block hb (hmono _ (hs.held p (List.mem_cons_of_mem _ hp))) ?_,
        hpart⟩
      intro heq
      exact hfresh (List.mem_map.mpr ⟨p, hp, heq⟩)
  · rcases List.mem_cons.mp hp with rfl | hp
    · exact hheld slot (hs.held _ List.mem_cons_self)
    · exact hheld p.slot (hs.held p (List.mem_cons_of_mem _ hp))

/-! ## Texts -/

omit [Digest] in
theorem fingerprint_text {text : String} (hslot : v.slot? = some slot)
    (hin : (Part.text slot text).In h) :
    h.fingerprint v =
      Encodable.encode (Form.bytes true (text.toUTF8.data.toList.map UInt8.toNat)) := by
  obtain ⟨block, hblock, hkind, hbody⟩ := hin
  have hkind : block.header.kind = .string := hkind
  have hcontent : h.content? v = some (.bytes true text.toUTF8.data.toList) := by
    rw [content?_block hslot hblock, Block.content?, hbody]
    simp [Part.text, hkind]
  have hnumber : h.number? v = .ok none := by
    rw [number?_ref hslot hblock, hbody]
    rfl
  rw [fingerprint, fingerprintWithin, form, hnumber, hcontent]
  rfl

omit [Digest] in
/-- Different texts are different keys. -/
theorem fingerprint_text_ne {u : Value} {s : Nat} {text other : String} (hne : text ≠ other)
    (hslot : v.slot? = some slot) (hin : (Part.text slot text).In h) (hs : u.slot? = some s)
    (hother : (Part.text s other).In h) : h.fingerprint v ≠ h.fingerprint u := by
  rw [fingerprint_text hslot hin, fingerprint_text hs hother]
  intro hsame
  have hforms := Encodable.encode_injective hsame
  simp only [Form.bytes.injEq, true_and] at hforms
  have hdata := List.map_injective_iff.mpr (fun a b => UInt8.toNat_inj.mp) hforms
  exact hne (String.toByteArray_inj.mp (ByteArray.ext (Array.toList_inj.mp hdata)))

theorem keyable_text {text : String} (hslot : v.slot? = some slot)
    (hin : (Part.text slot text).In h) : h.Keyable v := by
  obtain ⟨block, hblock, hkind, hbody⟩ := hin
  have hblock : h.block? slot = some block := hblock
  refine ⟨Digest.bytes (BoundedSeq.filled text.toUTF8.data).toList, ?_⟩
  have hnumber : h.number? v = .ok none := by
    rw [number?_ref hslot hblock, hbody]
    rfl
  rw [hashOf, hashWithin_succ, hnumber, hslot]
  simp only [hblock, blockHash, hkind, hbody]
  rfl

/-! ## Dicts and lists -/

/-- A dict of the stock with a slot to spare takes a new key in place. -/
theorem Stocks.dictPut {t : ProbeTable}
    (hs : h.Stocks settings starts (⟨slot, .dict, .hash t⟩ :: parts)) {dict key value : Value}
    (hslot : dict.slot? = some slot) (hroomy : t.needsRehash settings.loadFactor = false)
    (hkey : h.Keyable key) (husable : h.Usable (fun _ => False) key)
    (hvalue : h.Usable (fun _ => False) value)
    (hnew : ∀ entry ∈ t.toList, h.fingerprint entry.2.1 ≠ h.fingerprint key)
    {R : Refusal → Heap → Prop} :
    Yields (fun _ => False) (Heap.dictPut roots dict key value) h
      (fun _ h' => ∃ hash t', t.Gains t' hash key value ∧
        t'.toList.Perm ((hash, key, value) :: t.toList) ∧
        h'.Stocks settings starts (⟨slot, .dict, .hash t'⟩ :: parts)) R := by
  obtain ⟨b, hb, hkind, hbody⟩ := hs.present _ List.mem_cons_self
  obtain ⟨hash, hhash⟩ := hkey
  have hdict : h.dictSlot dict = .ok slot :=
    expectSlot_eq hslot hb "dict" (· == .dict) (by rw [hkind]; rfl)
  refine Yields.get (Yields.read_eq hdict ?_)
  refine hashInsert_yields hs.sound hb hbody hhash husable
    (fun stored old _ hmem hsame _ _ _ => ?_) fun hlacks => ?_
  · exact absurd hsame (hnew (hash, stored, old) hmem)
  rw [← hs.settings_eq] at hroomy
  refine Yields.bind (reserveSlot_roomy hs.sound hb hbody hroomy _) fun _ mid hroom => ?_
  obtain ⟨rfl, hroom⟩ := hroom
  refine (fillVacant_yields hs.sound hb hbody hhash husable hlacks hroom).mono
    (fun _ h' hfilled => ?_) fun _ _ hd => hd
  obtain ⟨t', hgains, _, hperm, rfl⟩ := hfilled
  have hdistinct : (t'.toList.map fun entry => mid.fingerprint entry.2.1).Nodup :=
    (ProbeTable.Binds.added hnew hperm).nodup (hs.sound.coherent.keyed slot b t hb hbody).distinct
  have hkeeps : t.keepsValues = true := by
    have hfits := hs.sound.coherent.fits slot b hb
    rw [hbody, hkind] at hfits
    simpa [Body.fits] using hfits
  have he := hs.sound.gain hb hbody hgains
    ⟨hhash, husable, hvalue, fun hset => by simp [hkeeps] at hset⟩ hdistinct
    (Or.inl (by rw [hkind]; rfl)) starts
  rw [hkind] at he
  refine ⟨hash, t', hgains, hperm, hs.edit he (fun _ hw => hw) fun w hw => ?_⟩
  obtain ⟨hash', key', value', hmem, hw⟩ := ProbeTable.mem_edges.mp hw
  rw [← hgains.reshapes.keepsValues_eq] at hw
  exact ProbeTable.mem_edges.mpr
    ⟨hash', key', value', hperm.mem_iff.mpr (List.mem_cons_of_mem _ hmem), hw⟩

/-- A list of the stock with a cell to spare takes an item in place. -/
theorem Stocks.pushItem {seq : BoundedSeq Value}
    (hs : h.Stocks settings starts (⟨slot, .list, .objects seq⟩ :: parts)) {item : Value}
    (hroom : seq.toList.length + 1 ≤ seq.capacity) (hitem : h.Usable (fun _ => False) item)
    {R : Refusal → Heap → Prop} :
    Yields (fun _ => False) (pushItems slot [item]) h
      (fun _ h' => ∃ seq' : BoundedSeq Value, seq'.toList = seq.toList ++ [item] ∧
        seq'.capacity = seq.capacity ∧
        h'.Stocks settings starts (⟨slot, .list, .objects seq'⟩ :: parts)) R := by
  obtain ⟨b, hb, hkind, hbody⟩ := hs.present _ List.mem_cons_self
  have haccepts := hs.sound.coherent.accepts hb
  rw [hbody, hkind] at haccepts
  have hroom : (Body.objects seq).elements.length + [item].length ≤ seq.capacity := hroom
  obtain ⟨body, hpush, hadj, hcapacity, hlist⟩ :=
    Body.seqPushAll_spec (Or.inr (Or.inr ⟨seq, rfl⟩)) haccepts.valid rfl hroom
  obtain ⟨seq', rfl⟩ := Body.exists_objects ((hadj.fits_eq .list).trans haccepts.fits) rfl
  have hitems : ∀ w ∈ [item], h.Usable (fun _ => False) w :=
    fun w hw => List.mem_singleton.mp hw ▸ hitem
  have he := hs.sound.setBody hb (hkind ▸ haccepts.adjust hadj hitems) (hbody ▸ hadj.size_eq)
    (Or.inl (by rw [hkind]; rfl)) starts
  rw [hkind] at he
  refine Yields.get (Yields.look_eq ((body_eq hb).trans (congrArg _ hbody))
    (Yields.look_eq hpush (Yields.set ⟨seq', hlist, Except.ok.inj hcapacity,
      hs.edit he (fun _ hw => hw) fun w hw => ?_⟩)))
  change w ∈ (Body.objects seq').elements
  rw [hlist]
  exact List.mem_append_left _ hw

/-- A list of the stock takes an item, after it has grown if it is full, or there is no memory for
that. -/
theorem Stocks.seqAppend {seq : BoundedSeq Value}
    (hs : h.Stocks settings starts (⟨slot, .list, .objects seq⟩ :: parts)) {list item : Value}
    (hslot : list.slot? = some slot) (hitem : h.Usable (fun _ => False) item) :
    Yields (fun _ => False) (Heap.seqAppend starts list item) h
      (fun _ h' => ∃ seq' : BoundedSeq Value, seq'.toList = seq.toList ++ [item] ∧
        seq'.capacity =
          (if seq.capacity < seq.toList.length + 1 then
            grownCapacity seq.capacity (seq.toList.length + 1) else seq.capacity) ∧
        h'.Stocks settings starts (⟨slot, .list, .objects seq'⟩ :: parts))
      fun refusal _ => refusal.isOutOfMemory = true := by
  obtain ⟨b, hb, hkind, hbody⟩ := hs.present _ List.mem_cons_self
  have hvalid : seq.Valid := by
    have hvalid := hs.sound.coherent.valid slot b hb
    rwa [hbody] at hvalid
  have hlen : b.body.seqLen = .ok seq.toList.length := by
    rw [hbody, hvalid.length_toList]
    rfl
  have hcapacity : b.body.seqCapacity = .ok seq.capacity := by
    rw [hbody]
    rfl
  refine Yields.get (Yields.read_eq (growableSequence_eq hslot hb (by rw [hkind]; rfl))
    (Yields.read_eq (checkElements_eq fun _ _ largest hmax => by rw [hkind] at hmax; cases hmax)
      (Yields.look_eq hlen (Yields.look_eq hcapacity ?_))))
  dsimp only
  split
  next hfull =>
    have hfull : seq.capacity < seq.toList.length + 1 := hfull
    have hle : seq.capacity ≤ grownCapacity seq.capacity (seq.toList.length + 1) := by
      rw [grownCapacity]
      omega
    refine Yields.bind ((growSequence_yields hs.sound hs.usable hb (by rw [hkind]; rfl)
      (by rw [hkind]; rfl) (fun w hw => List.mem_singleton.mp hw ▸ hitem) hcapacity hle).mono
      (fun _ _ hgrown => hgrown) fun _ _ hd => hd.1) fun _ mid hgrown => ?_
    obtain ⟨body, hgrows, he⟩ := hgrown
    rw [hkind] at he
    obtain ⟨grown, hgrown, hgrownkind, rfl⟩ := he.block
    have hfits := he.sound.coherent.fits slot grown hgrown
    obtain ⟨seq', hseq'⟩ := Body.exists_objects hfits (by rw [hgrownkind]; rfl)
    rw [hseq', hbody] at hgrows
    rw [hseq'] at he
    -- the starting values and the item are among what the growth keeps
    have hmid := hs.edit he (fun w hw => List.mem_append_left _ hw) fun w hw =>
      hgrows.edges_eq.symm ▸ hw
    have hlist : seq'.toList = seq.toList := hgrows.elements_eq
    have hcells : seq'.capacity = grownCapacity seq.capacity (seq.toList.length + 1) :=
      Except.ok.inj hgrows.seqCapacity_eq
    have hroom : seq'.toList.length + 1 ≤ seq'.capacity := by
      rw [hlist, hcells, grownCapacity]
      omega
    have hitem' : mid.Usable (fun _ => False) item :=
      he.usable hitem (holds_of_mem (List.mem_append_right _ (by simp)))
    refine (hmid.pushItem hroom hitem').mono (fun _ h' hpushed => ?_) fun _ _ hd => hd
    obtain ⟨seq'', hlist', hcells', hs''⟩ := hpushed
    exact ⟨seq'', by rw [hlist', hlist], by rw [if_pos hfull, hcells', hcells], hs''⟩
  next hroom =>
    have hroom : ¬ seq.capacity < seq.toList.length + 1 := hroom
    refine (hs.pushItem (Nat.le_of_not_lt hroom) hitem).mono (fun _ h' hpushed => ?_)
      fun _ _ hd => hd
    rwa [if_neg hroom]

/-! ## Collections -/

/-- Nothing but the stock is held if the starting values and the stock refer to nothing else. -/
theorem Stocks.mem_of_held (hs : h.Stocks settings starts parts) (hstarts : Confines parts starts)
    (hclosed : ∀ p ∈ parts, Confines parts p.body.edges) {s : Nat} (hheld : h.Held starts s) :
    s ∈ parts.map Part.slot := by
  induction hheld with
  | start hv hslot => exact hstarts _ hv _ hslot
  | register hv hslot => exact absurd hv (hs.not_mem_registers _)
  | pinned hblock hpinned =>
      rw [hs.unpinned _ _ hblock] at hpinned
      cases hpinned
  | edge _ hblock hv hslot ih =>
      obtain ⟨p, hp, rfl⟩ := List.mem_map.mp ih
      obtain ⟨block, hb, _, hbody⟩ := hs.present p hp
      cases hblock.symm.trans hb
      exact hclosed p hp _ (hbody ▸ hv) _ hslot

/-- After a collection the stock is all there is, and the counts are its counts. -/
theorem Stocks.collected (hs : h.Stocks settings starts parts) (hstarts : Confines parts starts)
    (hclosed : ∀ p ∈ parts, Confines parts p.body.edges) (hcollected : h.Collected starts h') :
    h'.liveObjects = parts.length ∧ h'.usedBytes = (parts.map Part.size).sum := by
  have hpresent : ∀ p ∈ parts, p.In h' := fun p hp => by
    obtain ⟨block, hb, hpart⟩ := hs.present p hp
    exact ⟨block, (hcollected.block?_iff p.slot block).mpr ⟨hb, hs.held p hp⟩, hpart⟩
  have hall (s : Nat) (block : Block) (hb : h'.block? s = some block) : s ∈ parts.map Part.slot :=
    hs.mem_of_held hstarts hclosed ((hcollected.block?_iff s block).mp hb).2
  have hperm := blocks_perm hpresent hs.nodup hall
  have hsizes := (hperm.map Prod.snd).sum_eq
  simp only [List.map_map, Function.comp_def] at hsizes
  refine ⟨?_, hcollected.consistent.usedBytes_eq.trans hsizes⟩
  rw [hcollected.consistent.liveObjects_eq, blockCount_eq_length_blocks]
  simpa using hperm.length_eq

/-! ## Clusters -/

section Clusters

variable {ι : Type} {items : List ι} {value : ι → Value} {cluster : ι → List Part}
  (hclusters : ∀ item ∈ items, Cluster (value item) (cluster item))
include hclusters

/-- Of the blocks in stock, those of some clusters can be kept. -/
theorem Stocks.regroup (hs : h.Stocks settings starts parts)
    (hsub : (items.flatMap cluster).Subperm parts) :
    h.Stocks settings (items.map value) (items.flatMap cluster) := by
  have hpresent (item : ι) (hitem : item ∈ items) : ∀ p ∈ cluster item, p.In h := fun p hp =>
    hs.present p (hsub.subset (List.mem_flatMap.mpr ⟨item, hitem, hp⟩))
  refine hs.restart (fun v hv => ?_) hsub fun p hp => ?_
  · obtain ⟨item, hitem, rfl⟩ := List.mem_map.mp hv
    obtain ⟨slot, hslot, hmem⟩ := (hclusters item hitem).root
    obtain ⟨p, hp, rfl⟩ := List.mem_map.mp hmem
    obtain ⟨block, hblock, _⟩ := hpresent item hitem p hp
    exact usable_of_slot? hslot hblock
  · obtain ⟨item, hitem, hp⟩ := List.mem_flatMap.mp hp
    refine ((hclusters item hitem).held h (hpresent item hitem) p hp).mono fun v hv => ?_
    rw [List.mem_singleton.mp hv]
    exact holds_of_mem (List.mem_map.mpr ⟨item, hitem, rfl⟩)

/-- After a collection from the values of some clusters, these are all there is. -/
theorem Stocks.collected_clusters
    (hs : h.Stocks settings (items.map value) (items.flatMap cluster))
    (hcollected : h.Collected (items.map value) h') :
    h'.liveObjects = (items.flatMap cluster).length ∧
      h'.usedBytes = ((items.flatMap cluster).map Part.size).sum := by
  refine hs.collected (fun v hv slot hslot => ?_) (fun p hp => ?_) hcollected
  · obtain ⟨item, hitem, rfl⟩ := List.mem_map.mp hv
    obtain ⟨s, hs, hmem⟩ := (hclusters item hitem).root
    cases hs.symm.trans hslot
    obtain ⟨p, hp, hpart⟩ := List.mem_map.mp hmem
    exact List.mem_map.mpr ⟨p, List.mem_flatMap.mpr ⟨item, hitem, hp⟩, hpart⟩
  · obtain ⟨item, hitem, hp⟩ := List.mem_flatMap.mp hp
    exact ((hclusters item hitem).closed p hp).mono fun q hq =>
      List.mem_flatMap.mpr ⟨item, hitem, hq⟩

end Clusters

end Heap

end ObjectHeap
