import ObjectHeap.Proofs.Allocation
import ObjectHeap.Proofs.Elements

/-! # What operations touch

An operation may collect, may make blocks, and changes one block at most besides. All blocks that
survive are otherwise as they were. So the keys among them hash and compare as before.
-/

namespace ObjectHeap

namespace Block

/-- Whether a block has no table, or one that has not been used. -/
def Blank (b : Block) : Prop := ∀ t, b.body = .hash t → t.Unused

theorem Alike.trans {b b' b'' : Block} (halike : b.Alike b') (halike' : b'.Alike b'') :
    b.Alike b'' := by
  have hkind := halike.kind_eq
  refine ⟨halike'.kind_eq.trans hkind, halike.fits, hkind ▸ halike'.fits', fun hfrozen => ?_⟩
  rw [halike'.body_eq (hkind ▸ hfrozen), halike.body_eq hfrozen]

end Block

/-- What an operation changes. -/
inductive Target where
  | nothing
  /-- Nothing, and the results are new. -/
  | fresh
  | registers
  /-- The block of a value, except for the entries of its table and its elements. -/
  | block (v : Value)
  /-- The elements of a value. -/
  | sequence (v : Value)
  /-- The table of a value. -/
  | table (v : Value)
  /-- The table of a new block. -/
  | filled (v : Value)

namespace Target

/-- The slot of the block that changes, unless it is a new one. -/
def slot? : Target → Option Nat
  | .block v | .sequence v | .table v => v.slot?
  | _ => none

/-- The slot of the table whose entries change. -/
def altered? : Target → Option Nat
  | .table v | .filled v => v.slot?
  | _ => none

/-- The slot of the sequence whose elements change. -/
def revised? : Target → Option Nat
  | .sequence v => v.slot?
  | _ => none

/-- Whether the registers stay as they are. -/
def keepsRegisters : Target → Bool
  | .registers => false
  | _ => true

/-- Whether the block in a slot may become another one. -/
def Allows (target : Target) (slot : Nat) (b b' : Block) : Prop :=
  b' = b ∨ target.slot? = some slot ∧ b.Alike b' ∧
    (target.altered? ≠ some slot → ∀ t, b'.body = .hash t ↔ b.body = .hash t) ∧
    (target.revised? ≠ some slot → b'.body.elements = b.body.elements)

/-- Whether the new block in a slot may have entries. -/
def Fills : Target → Nat → Prop
  | .filled v, slot => v.slot? = some slot
  | _, _ => False

/-- Whether the results are new. -/
def Makes : Target → Prop
  | .fresh | .filled _ => True
  | _ => False

variable {target : Target} {slot : Nat} {b b' b'' : Block}

theorem allows_self (target : Target) (slot : Nat) (b : Block) : target.Allows slot b b :=
  Or.inl rfl

/-- What is allowed in two steps is allowed in one. -/
theorem Allows.trans (h : target.Allows slot b b') (h' : target.Allows slot b' b'') :
    target.Allows slot b b'' := by
  rcases h with rfl | ⟨hslot, halike, htable, helements⟩
  · exact h'
  rcases h' with rfl | ⟨_, halike', htable', helements'⟩
  · exact Or.inr ⟨hslot, halike, htable, helements⟩
  · exact Or.inr ⟨hslot, halike.trans halike',
      fun hquiet t => (htable' hquiet t).trans (htable hquiet t),
      fun hquiet => (helements' hquiet).trans (helements hquiet)⟩

/-- A change that is allowed leaves alone what every change does. -/
theorem Allows.alike (h : target.Allows slot b b') (hfits : b.body.fits b.header.kind = true) :
    b.Alike b' := by
  rcases h with rfl | ⟨_, halike, _⟩
  · exact Block.Alike.refl hfits
  · exact halike

theorem allows_block {v : Value} (hslot : v.slot? = some slot) (halike : b.Alike b')
    (htable : ∀ t, b'.body = .hash t ↔ b.body = .hash t)
    (helements : b'.body.elements = b.body.elements) : (Target.block v).Allows slot b b' :=
  Or.inr ⟨hslot, halike, fun _ => htable, fun _ => helements⟩

theorem allows_sequence {v : Value} (hslot : v.slot? = some slot) (halike : b.Alike b')
    (htable : ∀ t, b'.body = .hash t ↔ b.body = .hash t) : (Target.sequence v).Allows slot b b' :=
  Or.inr ⟨hslot, halike, fun _ => htable, fun hquiet => absurd hslot hquiet⟩

theorem allows_table {v : Value} (hslot : v.slot? = some slot) (halike : b.Alike b')
    (helements : b'.body.elements = b.body.elements) : (Target.table v).Allows slot b b' :=
  Or.inr ⟨hslot, halike, fun hquiet => absurd hslot hquiet, fun _ => helements⟩

/-- All blocks stay as they are but the one that changes. -/
theorem Allows.eq (h : target.Allows slot b b') (hquiet : target.slot? ≠ some slot) : b' = b :=
  h.resolve_right fun hchange => hquiet hchange.1

/-- Only the table that is altered becomes another one. -/
theorem Allows.table_iff (h : target.Allows slot b b') (hquiet : target.altered? ≠ some slot)
    (t : ProbeTable) : b'.body = .hash t ↔ b.body = .hash t := by
  rcases h with rfl | ⟨_, _, htable, _⟩
  · exact Iff.rfl
  · exact htable hquiet t

/-- Only the sequence that is revised gets other elements. -/
theorem Allows.elements_eq (h : target.Allows slot b b') (hquiet : target.revised? ≠ some slot) :
    b'.body.elements = b.body.elements := by
  rcases h with rfl | ⟨_, _, _, helements⟩
  · rfl
  · exact helements hquiet

end Target

namespace Heap

variable {admits : Value → Prop} {h h' h'' : Heap} {starts : List Value} {target : Target}

/-! ## Blocks that survive -/

/-- The frame of an operation: what survives changes as the target allows, and all else is
new. -/
structure Carries (h : Heap) (starts : List Value) (target : Target) (h' : Heap) : Prop where
  settings_eq : h'.settings = h.settings
  size_le : h.slots.size ≤ h'.slots.size
  collections_le : h.collections ≤ h'.collections
  registers_eq : target.keepsRegisters = true → h'.registers = h.registers
  carried : ∀ s b, h.block? s = some b → h.Survives starts h' s →
    ∃ b', h'.block? s = some b' ∧ target.Allows s b b'
  born : ∀ s b', h'.block? s = some b' →
    (∃ b, h.block? s = some b ∧ h.Survives starts h' s) ∨ b'.Blank ∨ target.Fills s

/-- What survives and is not changed is where it was. -/
theorem Carries.kept (hcarries : h.Carries starts target h') {s : Nat} {b : Block}
    (hb : h.block? s = some b) (hsurvives : h.Survives starts h' s)
    (hquiet : target.slot? ≠ some s) : h'.block? s = some b := by
  obtain ⟨b', hb', hallows⟩ := hcarries.carried s b hb hsurvives
  rwa [hallows.eq hquiet] at hb'

/-- Which values hold the blocks does not matter to the frame, only which blocks they hold. -/
theorem Carries.starts_congr {starts' : List Value} (hcarries : h.Carries starts target h')
    (hheld : ∀ slot, h.Held starts slot ↔ h.Held starts' slot) : h.Carries starts' target h' := by
  refine ⟨hcarries.settings_eq, hcarries.size_le, hcarries.collections_le, hcarries.registers_eq,
    fun s b hb hsurvives => ?_, fun s b' hb' => ?_⟩
  · exact hcarries.carried s b hb ((survives_congr hheld s).mpr hsurvives)
  · refine (hcarries.born s b' hb').imp_left fun ⟨b, hb, hsurvives⟩ => ⟨b, hb, ?_⟩
    exact (survives_congr hheld s).mp hsurvives

/-- The frame of a step that protects values is that of the step after they are released, with
these values as further starts. -/
theorem Carries.unprotect {values : List Value}
    (hcarries : (h.protectAll values).Carries starts target h')
    (htarget : target.keepsRegisters = true) :
    h.Carries (starts ++ values) target (h'.releaseRegisters h.registerMark) := by
  refine ⟨hcarries.settings_eq, hcarries.size_le, hcarries.collections_le,
    fun _ => releaseRegisters_protectAll (hcarries.registers_eq htarget),
    fun s b hb hsurvives => ?_, fun s b' hb' => ?_⟩
  · exact hcarries.carried s b hb (survives_protectAll.mpr hsurvives)
  · exact (hcarries.born s b' hb').imp_left fun ⟨b, hb, hsurvives⟩ =>
      ⟨b, hb, survives_protectAll.mp hsurvives⟩

/-- An operation that changes nothing may be said to change anything. -/
theorem Carries.of_quiet {quiet : Target} (hcarries : h.Carries starts quiet h')
    (hquiet : quiet = .nothing ∨ quiet = .fresh) (target : Target) :
    h.Carries starts target h' := by
  have hslot : quiet.slot? = none := by rcases hquiet with rfl | rfl <;> rfl
  refine ⟨hcarries.settings_eq, hcarries.size_le, hcarries.collections_le,
    fun _ => hcarries.registers_eq ?_, fun s b hb hsurvives => ?_, fun s b' hb' => ?_⟩
  · rcases hquiet with rfl | rfl <;> rfl
  · have hb' := hcarries.kept hb hsurvives (hslot ▸ (Option.some_ne_none s).symm)
    exact ⟨b, hb', target.allows_self s b⟩
  · refine (hcarries.born s b' hb').imp_right fun hnew =>
      Or.inl (hnew.resolve_right fun hfills => ?_)
    rcases hquiet with rfl | rfl <;> exact hfills

/-- Operations follow one another. What is held for the second has to be what is held for the
first, as far as it has been there. -/
theorem Carries.trans {starts' : List Value} (hcarries : h.Carries starts .nothing h')
    (hcarries' : h'.Carries starts' .nothing h'') (hheld : ∀ s, h.Held starts s → h'.Held starts' s)
    (hback : ∀ s b, h.block? s = some b → h.Survives starts h' s → h'.Held starts' s →
      h.Held starts s) : h.Carries starts .nothing h'' := by
  have hle := hcarries.collections_le
  have hle' := hcarries'.collections_le
  refine ⟨hcarries'.settings_eq.trans hcarries.settings_eq,
    hcarries.size_le.trans hcarries'.size_le, hle.trans hle',
    fun htarget => (hcarries'.registers_eq htarget).trans (hcarries.registers_eq htarget),
    fun s b hb hsurvives => ?_, fun s b'' hb'' => ?_⟩
  · have hsurvives' : h.Survives starts h' s := hsurvives.imp_left fun heq => by omega
    obtain ⟨b', hb', hallows⟩ := hcarries.carried s b hb hsurvives'
    obtain ⟨b'', hb'', hallows'⟩ :=
      hcarries'.carried s b' hb' (hsurvives.imp (fun heq => by omega) (hheld s))
    exact ⟨b'', hb'', hallows.trans hallows'⟩
  · rcases hcarries'.born s b'' hb'' with ⟨b', hb', hsurvives'⟩ | hnew
    · obtain ⟨_, hsame, hallows⟩ := hcarries'.carried s b' hb' hsurvives'
      cases hb''.symm.trans hsame
      obtain rfl := hallows.eq (Option.some_ne_none s).symm
      refine (hcarries.born s b'' hb').imp_left fun ⟨b, hb, hsurvives⟩ => ⟨b, hb, ?_⟩
      -- either way the block of the first heap has outlived both steps
      rcases hsurvives, hsurvives' with ⟨heq | hheld', heq' | hheld''⟩
      · exact Or.inl (heq'.trans heq)
      · exact Or.inr (hback s b hb (Or.inl heq) hheld'')
      · exact Or.inr hheld'
      · exact Or.inr hheld'
    · exact Or.inr hnew

/-- A value that no block of the heap before had as its handle, as far as blocks survive. -/
def Fresh (h : Heap) (starts : List Value) (h' : Heap) (v : Value) : Prop :=
  ∀ s b, v.slot? = some s → h.block? s = some b → ¬ h.Survives starts h' s

theorem Fresh.starts_congr {starts' : List Value} {v : Value} (hfresh : h.Fresh starts h' v)
    (hheld : ∀ slot, h.Held starts slot ↔ h.Held starts' slot) : h.Fresh starts' h' v :=
  fun s b hs hb hsurvives => hfresh s b hs hb ((survives_congr hheld s).mpr hsurvives)

theorem Fresh.unprotect {values : List Value} {v : Value} {mark : Nat}
    (hfresh : (h.protectAll values).Fresh starts h' v) :
    h.Fresh (starts ++ values) (h'.releaseRegisters mark) v :=
  fun s b hs hb hsurvives => hfresh s b hs hb (survives_protectAll.mpr hsurvives)

/-- A handle that is new was not held. -/
theorem Fresh.not_held {v : Value} {s : Nat} {b : Block} (hfresh : h.Fresh starts h' v)
    (hs : v.slot? = some s) (hb : h.block? s = some b) : ¬ h.Held starts s :=
  fun hheld => hfresh s b hs hb (Or.inr hheld)

/-- What is new after a further operation was not there before the first one. -/
theorem Carries.fresh {starts' : List Value} {v : Value} (hcarries : h.Carries starts target h')
    (hle : h'.collections ≤ h''.collections) (hheld : ∀ s, h.Held starts s → h'.Held starts' s)
    (hfresh : h'.Fresh starts' h'' v) : h.Fresh starts h'' v := by
  intro s b hs hb hsurvives
  have hle' := hcarries.collections_le
  obtain ⟨b', hb', _⟩ := hcarries.carried s b hb (hsurvives.imp_left fun heq => by omega)
  exact hfresh s b' hs hb' (hsurvives.imp (fun heq => by omega) (hheld s))

/-- What an operation has made is still new after a further one. -/
theorem Fresh.of_le {v : Value} (hfresh : h.Fresh starts h' v)
    (hcollections : h.collections ≤ h'.collections) (hle : h'.collections ≤ h''.collections) :
    h.Fresh starts h'' v :=
  fun s b hs hb hsurvives => hfresh s b hs hb (hsurvives.imp_left fun heq => by omega)

/-- A value whose block survives stays usable. -/
theorem Carries.usable (hcarries : h.Carries starts target h') {v : Value}
    (hv : h.Usable admits v) (hsurvives : ∀ s, v.slot? = some s → h.Survives starts h' s) :
    h'.Usable admits v := by
  refine hv.mono fun s hs => ?_
  obtain ⟨b, hb⟩ := hv.block? hs
  obtain ⟨b', hb', _⟩ := hcarries.carried s b hb (hsurvives s hs)
  rw [hb']
  rfl

/-- Both heaps agree on the values that survive. -/
theorem Carries.agree [Digest] (hcarries : h.Carries starts target h') (hc : h.Coherent admits) :
    h.Agree h' fun v => h.Usable admits v ∧ ∀ s, v.slot? = some s → h.Survives starts h' s := by
  refine ⟨fun v s hv hs => ?_, fun v s b w hv hs hb hw => ?_⟩
  · obtain ⟨b, hb⟩ := hv.1.block? hs
    obtain ⟨b', hb', hallows⟩ := hcarries.carried s b hb (hv.2 s hs)
    exact ⟨b, b', hb, hb', hallows.alike (hc.fits s b hb)⟩
  · exact ⟨hc.parts_usable hb hw,
      fun next hnext => (hv.2 s hs).edge hb (Block.mem_edges_of_mem_parts hw) hnext⟩

/-- Values that survive hash as before. -/
theorem Carries.hashOf_eq [Digest] (hcarries : h.Carries starts target h')
    (hc : h.Coherent admits) {v : Value} (hv : h.Usable admits v)
    (hsurvives : ∀ s, v.slot? = some s → h.Survives starts h' s) :
    h'.hashOf v = h.hashOf v := by
  obtain ⟨rank, hrank, hdepth⟩ := hc.exists_rank
  exact (hcarries.agree hc).hashOf_eq hrank hcarries.size_le ⟨hv, hsurvives⟩ (hdepth v hv)

/-- Keys that survive have the fingerprints that they had. -/
theorem Carries.fingerprint_eq [Digest] (hcarries : h.Carries starts target h')
    (hc : h.Coherent admits) {v : Value} (hv : h.Usable admits v)
    (hsurvives : ∀ s, v.slot? = some s → h.Survives starts h' s) (hkey : h.Keyable v) :
    h'.fingerprint v = h.fingerprint v :=
  (hcarries.agree hc).fingerprint_eq hc hcarries.size_le ⟨hv, hsurvives⟩ hv hkey

/-- A key whose block survives stays a key. -/
theorem Carries.keyable [Digest] (hcarries : h.Carries starts target h')
    (hc : h.Coherent admits) {v : Value} (hv : h.Usable admits v)
    (hsurvives : ∀ s, v.slot? = some s → h.Survives starts h' s) (hkey : h.Keyable v) :
    h'.Keyable v := by
  rwa [Keyable, hcarries.hashOf_eq hc hv hsurvives]

/-- Keys that survive compare as before. -/
theorem Carries.valuesEqual_eq [Digest] (hcarries : h.Carries starts target h')
    (hc : h.Coherent admits) (hc' : h'.Coherent admits) {a b : Value} (ha : h.Usable admits a)
    (hb : h.Usable admits b) (hakey : h.Keyable a) (hbkey : h.Keyable b)
    (hasurvives : ∀ s, a.slot? = some s → h.Survives starts h' s)
    (hbsurvives : ∀ s, b.slot? = some s → h.Survives starts h' s) :
    h'.valuesEqual a b = h.valuesEqual a b := by
  rw [hc'.valuesEqual_keys (hcarries.keyable hc ha hasurvives hakey)
      (hcarries.keyable hc hb hbsurvives hbkey) (hcarries.usable ha hasurvives)
      (hcarries.usable hb hbsurvives),
    hc.valuesEqual_keys hakey hbkey ha hb, hcarries.fingerprint_eq hc ha hasurvives hakey,
    hcarries.fingerprint_eq hc hb hbsurvives hbkey]

/-! ## The frames of single steps -/

/-- A collection changes nothing that survives. -/
theorem Pruned.carries (hp : h.Pruned starts h') : h.Carries starts .nothing h' := by
  refine ⟨hp.settings_eq, Nat.le_of_eq hp.size_eq.symm, hp.collections_le,
    fun _ => hp.registers_eq, fun s b hb hsurvives => ?_, fun s b' hb' => ?_⟩
  · exact ⟨b, (hp.block?_iff s b).mpr ⟨hb, hsurvives⟩, Target.allows_self ..⟩
  · exact Or.inl ⟨b', (hp.block?_iff s b').mp hb'⟩

variable [Digest]

/-- An allocation changes nothing that survives. -/
theorem Allocated.carries {kind : Kind} {body : Body} {slot : Nat}
    (hnew : h.Allocated admits starts kind body slot h')
    (hblank : ∀ t, body = .hash t → t.Unused) : h.Carries starts .nothing h' := by
  refine ⟨hnew.settings_eq, hnew.size_le, hnew.collections_le, fun _ => hnew.registers_eq,
    fun s b hb hsurvives => ?_, fun s b' hb' => ?_⟩
  · exact ⟨b, (hnew.survives hb hsurvives).2, Target.allows_self ..⟩
  · by_cases hs : s = slot
    · subst hs
      obtain ⟨block, hblock, _, rfl, _⟩ := hnew.block
      cases hb'.symm.trans hblock
      exact Or.inr (Or.inl hblank)
    · exact Or.inl ⟨b', (hnew.block?_iff s b' hs).mp hb'⟩

/-- The handle of a new block is new. -/
theorem Allocated.fresh_of_slot? {kind : Kind} {body : Body} {slot : Nat} {v : Value}
    (hnew : h.Allocated admits starts kind body slot h') (hslot : v.slot? = some slot) :
    h.Fresh starts h' v := by
  intro s b hs hb
  cases hslot.symm.trans hs
  exact hnew.fresh b hb

/-- A new block that gets another payload is filled. -/
theorem Allocated.carries_filled {kind : Kind} {body : Body} {slot : Nat} {new : Block} {v : Value}
    (hnew : h.Allocated admits starts kind body slot h') (hw : h'.Writes slot new h'')
    (hslot : v.slot? = some slot) : h.Carries starts (.filled v) h'' := by
  have hsame (s : Nat) : h.Survives starts h'' s ↔ h.Survives starts h' s := by
    rw [Survives, hw.collections_eq, Survives]
  refine ⟨hw.settings_eq.trans hnew.settings_eq, hnew.size_le.trans hw.size_le,
    hw.collections_eq ▸ hnew.collections_le, fun _ => hw.registers_eq.trans hnew.registers_eq,
    fun s b hb hsurvives => ?_, fun s b' hb' => ?_⟩
  · obtain ⟨hne, hkept⟩ := hnew.survives hb ((hsame s).mp hsurvives)
    exact ⟨b, (hw.block?_other s hne).trans hkept, Target.allows_self ..⟩
  · rcases hw.cases hb' with ⟨rfl, _⟩ | ⟨hne, hkept⟩
    · exact Or.inr (Or.inr hslot)
    · obtain ⟨hb, hsurvives⟩ := (hnew.block?_iff s b' hne).mp hkept
      exact Or.inl ⟨b', hb, (hsame s).mpr hsurvives⟩

/-- An edit of one block changes what the target allows, and nothing else that survives. -/
theorem Edited.carries {slot : Nat} {b : Block} {kind : Kind} {body : Body}
    (he : h.Edited admits starts slot kind body h') (hb : h.block? slot = some b)
    (hallows : ∀ b', h'.block? slot = some b' → target.Allows slot b b') :
    h.Carries starts target h' := by
  refine ⟨he.settings_eq, Nat.le_of_eq he.size_eq.symm, he.collections_le,
    fun _ => he.registers_eq, fun s block hblock hsurvives => ?_, fun s b' hb' => ?_⟩
  · by_cases hs : s = slot
    · subst hs
      cases hb.symm.trans hblock
      obtain ⟨b', hb', _⟩ := he.block
      exact ⟨b', hb', hallows b' hb'⟩
    · exact ⟨block, (he.block?_iff s block hs).mpr ⟨hblock, hsurvives⟩, target.allows_self s block⟩
  · by_cases hs : s = slot
    · subst hs
      exact Or.inl ⟨b, hb, he.survives⟩
    · exact Or.inl ⟨b', (he.block?_iff s b' hs).mp hb'⟩

/-- A block that may change is like the one that it becomes. -/
theorem Edited.alike {slot : Nat} {b b' : Block} {body : Body}
    (he : h.Edited admits starts slot b.header.kind body h') (hc : h.Coherent admits)
    (hb : h.block? slot = some b) (hfrozen : b.header.kind.isFrozen = false)
    (hb' : h'.block? slot = some b') : b.Alike b' := by
  obtain ⟨block, hblock, hkind, _⟩ := he.block
  cases hb'.symm.trans hblock
  refine ⟨hkind, hc.fits slot b hb, hkind ▸ he.sound.coherent.fits slot b' hb', fun hcontra => ?_⟩
  rw [hfrozen] at hcontra
  cases hcontra

/-! ## Changes in place -/

/-- What a change in place leaves: a sound heap with the same slots in use. -/
structure Retains (admits : Value → Prop) (h : Heap) (target : Target) (h' : Heap) : Prop where
  sound : h'.Sound admits 0
  settings_eq : h'.settings = h.settings
  size_le : h.slots.size ≤ h'.slots.size
  collections_eq : h'.collections = h.collections
  registers_eq : target.keepsRegisters = true → h'.registers = h.registers
  carried : ∀ s b, h.block? s = some b → ∃ b', h'.block? s = some b' ∧ target.Allows s b b'
  before : ∀ s b', h'.block? s = some b' → ∃ b, h.block? s = some b

theorem Retains.refl (hs : h.Sound admits 0) (target : Target) : h.Retains admits target h :=
  ⟨hs, rfl, Nat.le_refl _, rfl, fun _ => rfl, fun s b hb => ⟨b, hb, target.allows_self s b⟩,
    fun _ b hb => ⟨b, hb⟩⟩

/-- Changes in place compose. -/
theorem Retains.trans (hr : h.Retains admits target h') (hr' : h'.Retains admits target h'') :
    h.Retains admits target h'' := by
  refine ⟨hr'.sound, hr'.settings_eq.trans hr.settings_eq, hr.size_le.trans hr'.size_le,
    hr'.collections_eq.trans hr.collections_eq,
    fun htarget => (hr'.registers_eq htarget).trans (hr.registers_eq htarget),
    fun s b hb => ?_, fun s b'' hb'' => ?_⟩
  · obtain ⟨b', hb', hallows⟩ := hr.carried s b hb
    obtain ⟨b'', hb'', hallows'⟩ := hr'.carried s b' hb'
    exact ⟨b'', hb'', hallows.trans hallows'⟩
  · obtain ⟨b', hb'⟩ := hr'.before s b'' hb''
    exact hr.before s b' hb'

/-- A change in place carries everything, whatever the starts are. -/
theorem Retains.carries (hr : h.Retains admits target h') (starts : List Value) :
    h.Carries starts target h' := by
  refine ⟨hr.settings_eq, hr.size_le, Nat.le_of_eq hr.collections_eq.symm, hr.registers_eq,
    fun s b hb _ => hr.carried s b hb, fun s b' hb' => ?_⟩
  obtain ⟨b, hb⟩ := hr.before s b' hb'
  exact Or.inl ⟨b, hb, Or.inl hr.collections_eq⟩

theorem Retains.usable (hr : h.Retains admits target h') (v : Value) (hv : h.Usable admits v) :
    h'.Usable admits v :=
  (hr.carries []).usable hv fun _ _ => Or.inl hr.collections_eq

/-- A block may be changed again after an operation that has changed it. -/
theorem Carries.retains (hcarries : h.Carries starts target h')
    (hr : h'.Retains admits target h'') (hquiet : target.altered? = none) :
    h.Carries starts target h'' := by
  have hsame (s : Nat) : h.Survives starts h'' s ↔ h.Survives starts h' s := by
    rw [Survives, hr.collections_eq, Survives]
  refine ⟨hr.settings_eq.trans hcarries.settings_eq, hcarries.size_le.trans hr.size_le,
    hr.collections_eq ▸ hcarries.collections_le,
    fun htarget => (hr.registers_eq htarget).trans (hcarries.registers_eq htarget),
    fun s b hb hsurvives => ?_, fun s b'' hb'' => ?_⟩
  · obtain ⟨b', hb', hallows⟩ := hcarries.carried s b hb ((hsame s).mp hsurvives)
    obtain ⟨b'', hb'', hallows'⟩ := hr.carried s b' hb'
    exact ⟨b'', hb'', hallows.trans hallows'⟩
  · obtain ⟨b', hb'⟩ := hr.before s b'' hb''
    obtain ⟨found, hfound, hallows⟩ := hr.carried s b' hb'
    cases hb''.symm.trans hfound
    rcases hcarries.born s b' hb' with ⟨b, hb, hsurvives⟩ | hblank | hfills
    · exact Or.inl ⟨b, hb, (hsame s).mpr hsurvives⟩
    · have hother : target.altered? ≠ some s := hquiet ▸ (Option.some_ne_none s).symm
      exact Or.inr (Or.inl fun t hbody => hblank t ((hallows.table_iff hother t).mp hbody))
    · exact Or.inr (Or.inr hfills)

/-- A block that is written over another changes in place. -/
theorem Writes.retains {slot : Nat} {b new : Block} (hw : h.Writes slot new h')
    (hs : h'.Sound admits 0) (hb : h.block? slot = some b) (hallows : target.Allows slot b new) :
    h.Retains admits target h' := by
  refine ⟨hs, hw.settings_eq, hw.size_le, hw.collections_eq, fun _ => hw.registers_eq,
    fun s block hblock => ?_, fun s b' hb' => ?_⟩
  · by_cases heq : s = slot
    · subst heq
      cases hb.symm.trans hblock
      exact ⟨new, hw.block?_slot, hallows⟩
    · exact ⟨block, (hw.block?_other s heq).trans hblock, target.allows_self s block⟩
  · rcases hw.cases hb' with ⟨rfl, _⟩ | ⟨_, hb⟩
    · exact ⟨b, hb⟩
    · exact ⟨b', hb⟩

/-! ## The ends of operations -/

/-- What a successful operation leaves: a sound heap in which its results can be used. -/
structure Completed (admits : Value → Prop) (h : Heap) (starts : List Value) (target : Target)
    (results : List Value) (h' : Heap) : Prop where
  sound : h'.Sound admits 0
  results_usable : ∀ v ∈ results, h'.Usable admits v
  results_fresh : target.Makes → ∀ v ∈ results, h.Fresh starts h' v
  carries : h.Carries starts target h'

theorem Completed.kept {results : List Value} (hdone : h.Completed admits starts target results h')
    (v : Value) (hv : h.Usable admits v) (hheld : h.Holds starts v) : h'.Usable admits v :=
  hdone.carries.usable hv fun s hs => Or.inr (hheld s hs)

/-- A change in place that makes nothing completes an operation with results that were usable
before. -/
theorem Retains.completed {results : List Value} (hr : h.Retains admits target h')
    (hresults : ∀ v ∈ results, h.Usable admits v) (hmakes : ¬ target.Makes) :
    h.Completed admits starts target results h' :=
  ⟨hr.sound, fun v hv => hr.usable v (hresults v hv), fun hcontra => absurd hcontra hmakes,
    hr.carries starts⟩

/-- A change in place may follow a completed operation, unless the operation is on a table. -/
theorem Completed.retains {results : List Value}
    (hdone : h.Completed admits starts target results h') (hr : h'.Retains admits target h'')
    (hquiet : target.altered? = none) : h.Completed admits starts target results h'' :=
  ⟨hr.sound, fun w hw => hr.usable w (hdone.results_usable w hw),
    fun hmakes w hw => (hdone.results_fresh hmakes w hw).of_le hdone.carries.collections_le
      (Nat.le_of_eq hr.collections_eq.symm),
    hdone.carries.retains hr hquiet⟩

/-- An operation that changes nothing completes one that may change more. -/
theorem Completed.of_quiet {quiet : Target} {results : List Value}
    (hdone : h.Completed admits starts quiet results h')
    (hquiet : quiet = .nothing ∨ quiet = .fresh) (target : Target) (hmakes : ¬ target.Makes) :
    h.Completed admits starts target results h' :=
  ⟨hdone.sound, hdone.results_usable, fun hcontra => absurd hcontra hmakes,
    hdone.carries.of_quiet hquiet target⟩

theorem Completed.starts_congr {starts' results : List Value}
    (hdone : h.Completed admits starts target results h')
    (hheld : ∀ slot, h.Held starts slot ↔ h.Held starts' slot) :
    h.Completed admits starts' target results h' :=
  ⟨hdone.sound, hdone.results_usable,
    fun hmakes v hv => (hdone.results_fresh hmakes v hv).starts_congr hheld,
    hdone.carries.starts_congr hheld⟩

/-- An operation that protects values completes with these as further starts. -/
theorem Completed.unprotect {values results : List Value}
    (hdone : (h.protectAll values).Completed admits starts target results h')
    (htarget : target.keepsRegisters = true) :
    h.Completed admits (starts ++ values) target results (h'.releaseRegisters h.registerMark) :=
  ⟨hdone.sound.releaseRegisters _, hdone.results_usable,
    fun hmakes v hv => (hdone.results_fresh hmakes v hv).unprotect,
    hdone.carries.unprotect htarget⟩

/-- An allocation completes an operation that makes its block. -/
theorem Allocated.completed {kind : Kind} {body : Body} {slot : Nat}
    (hnew : h.Allocated admits starts kind body slot h')
    (hblank : ∀ t, body = .hash t → t.Unused) {v : Value} (hslot : v.slot? = some slot) :
    h.Completed admits starts .fresh [v] h' := by
  obtain ⟨block, hblock, _⟩ := hnew.block
  refine ⟨hnew.sound, fun w hw => ?_, fun _ w hw => ?_,
    (hnew.carries hblank).of_quiet (Or.inl rfl) _⟩
  · rw [List.mem_singleton.mp hw]
    exact usable_of_slot? hslot hblock
  · rw [List.mem_singleton.mp hw]
    exact hnew.fresh_of_slot? hslot

/-- How an operation with values `starts` may end. -/
def Ends (admits : Value → Prop) {α : Type} (step : HeapM α) (h : Heap) (starts : List Value)
    (target : Target) (results : α → List Value) : Prop :=
  Yields admits step h (fun a => h.Completed admits starts target (results a))
    (h.Declined admits starts)

theorem ends_of_and {α : Type} {step : HeapM α} {results : α → List Value} {P : α → Heap → Prop}
    (hyields : Yields admits step h
      (fun a h' => h.Completed admits starts target (results a) h' ∧ P a h')
      (h.Declined admits starts)) : Ends admits step h starts target results :=
  Yields.mono hyields (fun _ _ hdone => hdone.1) fun _ _ hd => hd

/-- How an operation ends does not depend on how its values are listed. -/
theorem Ends.starts_congr {α : Type} {step : HeapM α} {starts' : List Value}
    {results : α → List Value} (hends : Ends admits step h starts target results)
    (hheld : ∀ slot, h.Held starts slot ↔ h.Held starts' slot) :
    Ends admits step h starts' target results :=
  Yields.mono hends (fun _ _ hdone => hdone.starts_congr hheld) fun _ _ hd => hd.starts_congr hheld

end Heap

end ObjectHeap
