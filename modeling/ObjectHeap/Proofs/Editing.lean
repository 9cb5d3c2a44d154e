import ObjectHeap.Frame
import ObjectHeap.Sequence
import ObjectHeap.Proofs.Construction

/-! # Changes in place

Sequences, frames, records and threads change one payload at a time. Adjusting the payload of a
block that may change keeps a heap sound. An operation on a sequence does to its elements what the
same operation does to a list.
-/

namespace ObjectHeap

namespace Body

variable {added : List Value}

/-- A frame that keeps its sizes is adjusted, if the values it gains were added or are nil. -/
theorem adjusts_frame {f f' : FrameBody} (hvalid : f'.stack.Valid)
    (hlocals : f'.locals.size = f.locals.size) (hcapacity : f'.stack.capacity = f.stack.capacity)
    (hedges : ∀ v ∈ (Body.frame f').edges, v ∈ (Body.frame f).edges ∨ v ∈ added ∨ v = Value.nil) :
    (Body.frame f).Adjusts (.frame f') added :=
  ⟨fun _ => rfl, hvalid, by simp [blockSize, payloadSize, hlocals, hcapacity], hedges,
    by simp⟩

end Body

/-- A field can be assigned in every record of its kind. -/
theorem Field.assign?_spec {body : Body} (field : Field) (value : Value)
    (hfits : body.fits field.kind = true) (hvalid : body.Valid) :
    ∃ body', field.assign? value body = some body' ∧ body.Adjusts body' [value] ∧
      body'.elements = body.elements := by
  cases field <;> cases body <;>
    first
    | exact absurd hfits Bool.false_ne_true
    | refine ⟨_, rfl, ⟨fun _ => rfl, hvalid, rfl, ?_, by simp⟩, rfl⟩
      simp only [Body.edges]
      grind

/-- Slots are numbers of 32 bits. -/
theorem Value.lt_of_slot? {v : Value} {slot : Nat} (h : v.slot? = some slot) : slot < span32 := by
  rw [Value.slot?] at h
  split at h
  next => cases h
  next =>
    rw [← Option.some.inj h, UInt64.toNat_mod]
    exact Nat.mod_lt _ (by decide)

/-- A mutable kind of sequence is not frozen. -/
theorem Kind.isFrozen_of_isMutable {kind : Kind} (h : kind.isMutable = true) :
    kind.isFrozen = false := by
  rw [isFrozen, h]
  rfl

namespace Heap

variable [Digest] {admits : Value → Prop} {h : Heap} {roots starts : List Value} {v : Value}

/-! ## Writing a payload -/

omit [Digest] in
/-- What a block supplies to a reader is usable. -/
theorem Coherent.usable_supplied [Digest] (hc : h.Coherent admits) {slot : Nat} {b : Block}
    (hb : h.block? slot = some b) {item : Value} (hitem : b.body.Supplies item) :
    h.Usable admits item := by
  rcases hitem with hmem | ⟨n, hn⟩
  · exact hc.edges_usable slot b hb item hmem
  · exact usable_smallInt hn

/-- A payload that is adjusted with usable values is accepted for the same kind. -/
theorem Accepts.adjust {kind : Kind} {body body' : Body} {added : List Value}
    (ha : h.Accepts admits kind body) (hadj : body.Adjusts body' added)
    (hadded : ∀ w ∈ added, h.Usable admits w) : h.Accepts admits kind body' := by
  refine ⟨(hadj.fits_eq kind).trans ha.fits, hadj.valid, fun w hw => ?_,
    fun table hbody => ha.keyed table ((hadj.table_iff table).mp hbody)⟩
  rcases hadj.edges w hw with hold | hnew | rfl
  · exact ha.edges_usable w hold
  · exact hadded w hnew
  · exact usable_nil

/-- An edit that the target allows completes an operation. -/
theorem Edited.completed {slot : Nat} {b : Block} {kind : Kind} {body : Body} {target : Target}
    {h' : Heap} (he : h.Edited admits starts slot kind body h') (hb : h.block? slot = some b)
    (hallows : ∀ b', h'.block? slot = some b' → target.Allows slot b b') :
    h.Completed admits starts target [] h' :=
  ⟨he.sound, by simp, by simp, he.carries hb hallows⟩

section Changes

variable (hs : h.Sound admits 0)
include hs

/-- A block that may change can get another payload of the same size in place. -/
theorem Sound.setBody_retains {slot : Nat} {b : Block} (hb : h.block? slot = some b)
    (hfrozen : b.header.kind.isFrozen = false) {body : Body}
    (ha : h.Accepts admits b.header.kind body) (hsize : body.blockSize = b.body.blockSize)
    {target : Target} (hallows : b.Alike { b with body } → target.Allows slot b { b with body }) :
    h.Retains admits target (h.setBody slot body) := by
  have halike : b.Alike { b with body } :=
    ⟨rfl, hs.coherent.fits slot b hb, ha.fits, fun hcontra => by simp [hfrozen] at hcontra⟩
  obtain ⟨hsound, hw⟩ := hs.modifyBlock hb ({ · with body }) rfl rfl rfl ha hsize (Or.inl halike)
  exact hw.retains hsound hb (hallows halike)

/-- A payload of a block that may change can be adjusted. -/
theorem Sound.adjust {slot : Nat} {b : Block} (hb : h.block? slot = some b)
    (hfrozen : b.header.kind.isFrozen = false) {body : Body} {added : List Value}
    (hadj : b.body.Adjusts body added) (hadded : ∀ w ∈ added, h.Usable admits w) {target : Target}
    (hallows : b.Alike { b with body } → target.Allows slot b { b with body }) :
    h.Retains admits target (h.setBody slot body) :=
  hs.setBody_retains hb hfrozen ((hs.coherent.accepts hb).adjust hadj hadded) hadj.size_eq hallows

/-! ## Sequences -/

omit hs [Digest] in
/-- Whether the sequence of a value has got other elements. -/
def Revises (h : Heap) (v : Value) (h' : Heap) (revise : Kind → List Value → List Value) : Prop :=
  ∃ slot b b', v.slot? = some slot ∧ h.block? slot = some b ∧ h'.block? slot = some b' ∧
    b'.body.elements = revise b.header.kind b.body.elements

/-- A sequence that may change can be adjusted. -/
theorem Sound.revise {slot : Nat} {b : Block} (hslot : v.slot? = some slot)
    (hb : h.block? slot = some b) (hmutable : b.header.kind.isMutable = true) {body : Body}
    {added results : List Value} (hadj : b.body.Adjusts body added)
    (hadded : ∀ w ∈ added, h.Usable admits w) (hresults : ∀ w ∈ results, h.Usable admits w)
    {revise : Kind → List Value → List Value}
    (hlist : body.elements = revise b.header.kind b.body.elements) :
    h.Completed admits starts (.sequence v) results (h.setBody slot body) ∧
      h.Revises v (h.setBody slot body) revise := by
  have hr := hs.adjust hb (Kind.isFrozen_of_isMutable hmutable) hadj hadded
    fun halike => Target.allows_sequence hslot halike hadj.table_iff
  exact ⟨hr.completed hresults id, slot, b, _, hslot, hb, block?_setBody_self hb body, hlist⟩

omit hs [Digest] in
/-- A sequence that passes as mutable is one. -/
theorem mutableSequence_gives (hv : h.Usable admits v) :
    Gives admits (h.mutableSequence v) fun (slot, b) => v.slot? = some slot ∧
      h.block? slot = some b ∧ b.header.kind.isSequence = true ∧
        b.header.kind.isMutable = true := by
  unfold mutableSequence
  refine Gives.bind (expectBlock_gives hv ..) fun (slot, b) hblock => ?_
  obtain ⟨hslot, hb, hseq⟩ := hblock
  dsimp only
  split
  next => exact trivial
  next hmutable => exact Gives.ok ⟨hslot, hb, hseq, by simpa using hmutable⟩

omit hs [Digest] in
/-- A sequence that passes as growable is a mutable one. -/
theorem growableSequence_gives (hv : h.Usable admits v) :
    Gives admits (h.growableSequence v) fun (slot, b) => v.slot? = some slot ∧
      h.block? slot = some b ∧ b.header.kind.isSequence = true ∧
        b.header.kind.isMutable = true := by
  unfold growableSequence
  refine Gives.bind (mutableSequence_gives hv) fun (slot, b) hblock => ?_
  dsimp only
  split
  next => exact trivial
  next => exact Gives.ok hblock

omit hs [Digest] in
theorem Usable.looks_isSmallInt (hv : h.Usable admits v) :
    Looks admits v.isSmallInt fun small => v.isSmallInt = .ok small := by
  cases hkind : v.inlineKind? with
  | ok found =>
      have hsmall : v.isSmallInt = .ok (found == some .smallInt) := by
        rw [Value.isSmallInt, hkind]
        rfl
      exact Looks.of_eq hsmall hsmall
  | error fault =>
      have hslot : v.slot? = none := by
        rw [Value.inlineKind?] at hkind
        split at hkind
        next hinline => exact if_pos hinline
        next => cases hkind
      have hview := hv.looks_view
      rw [Value.view_of_inlineKind?_error hslot hkind] at hview
      rw [Value.isSmallInt, hkind]
      exact hview

omit hs [Digest] in
/-- An element that passes the check is one that sequences of the kind take. -/
theorem checkElement_gives (hv : h.Usable admits v) (kind : Kind) :
    Gives admits (h.checkElement kind v) fun _ => kind.Takes v := by
  unfold checkElement
  cases hmax : elementMax? kind with
  | none =>
      refine Gives.ok fun largest hlargest => ?_
      rw [hmax] at hlargest
      cases hlargest
  | some largest =>
      refine Gives.look hv.looks_isSmallInt fun small hsmall => ?_
      dsimp only
      split
      next =>
        refine Gives.look (kindOf_looks hv) fun kind _ => ?_
        exact trivial
      next hyes =>
        rw [Bool.not_eq_true', Bool.not_eq_false] at hyes
        subst hyes
        split
        next => exact trivial
        next hrange =>
          refine Gives.ok fun bound hbound => ?_
          cases hmax.symm.trans hbound
          simp only [Bool.not_eq_true', Bool.not_eq_false, Bool.and_eq_true, decide_eq_true_eq]
            at hrange
          exact ⟨_, Value.view_eq_smallInt_iff.mpr ⟨hsmall, rfl⟩, hrange⟩

/-- Storing an element replaces one item. -/
theorem seqSet_revises (hv : h.Usable admits v) (index : Nat) {item : Value}
    (hitem : h.Usable admits item) :
    Yields admits (seqSet v index item) h
      (fun _ h' => h.Completed admits starts (.sequence v) [] h' ∧
        h.Revises v h' fun kind items => items.set index (kind.element item))
      (h.Declined admits starts) := by
  have hd := Declined.refl hs starts
  refine Yields.get (Yields.read (mutableSequence_gives hv) hd fun (slot, b) hblock => ?_)
  obtain ⟨hslot, hb, hseq, hmutable⟩ := hblock
  refine Yields.read (checkElement_gives hitem _) hd fun _ htakes => ?_
  have hfits := hs.coherent.fits slot b hb
  have hvalid := hs.coherent.valid slot b hb
  have hform := Body.isSequence_of_fits hfits hseq
  obtain ⟨_, hn, _⟩ := Body.exists_counts hform hvalid
  rcases Body.seqSet?_cases hform hvalid index item with ⟨hset, _⟩ | ⟨body, hset, _, hadj, hlist⟩
  · exact Yields.look_eq hset (Yields.look_eq hn (Yields.throw (hd _)))
  · rw [Body.element_eq hfits htakes] at hlist
    exact Yields.look_eq hset (Yields.set
      (hs.revise hslot hb hmutable hadj (by simpa using hitem) (by simp) hlist))

/-- A new length drops items at the end or adds fillers there. -/
theorem seqSetLen_revises (hv : h.Usable admits v) (len : Nat) :
    Yields admits (seqSetLen v len) h
      (fun _ h' => h.Completed admits starts (.sequence v) [] h' ∧
        h.Revises v h' fun kind items =>
          items.take len ++ List.replicate (len - items.length) kind.filler)
      (h.Declined admits starts) := by
  have hd := Declined.refl hs starts
  refine Yields.get (Yields.read (mutableSequence_gives hv) hd fun (slot, b) hblock => ?_)
  obtain ⟨hslot, hb, hseq, hmutable⟩ := hblock
  have hfits := hs.coherent.fits slot b hb
  have hvalid := hs.coherent.valid slot b hb
  have hform := Body.isSequence_of_fits hfits hseq
  obtain ⟨_, _, hcapacity, _⟩ := Body.exists_counts hform hvalid
  rcases Body.seqSetLen?_cases hform hvalid hcapacity len with
    ⟨hset, _⟩ | ⟨body, hset, _, hadj, hlist⟩
  · exact Yields.look_eq hset (Yields.look_eq hcapacity (Yields.throw (hd _)))
  · rw [Body.filler_eq hfits] at hlist
    exact Yields.look_eq hset (Yields.set
      (hs.revise hslot hb hmutable hadj (by simp) (by simp) hlist))

/-- The last item is taken off the sequence and returned. -/
theorem seqPop_revises (hv : h.Usable admits v) :
    Yields admits (seqPop v) h
      (fun item h' => h.Completed admits starts (.sequence v) [item] h' ∧
        h.Revises v h' fun _ items => items.dropLast)
      (h.Declined admits starts) := by
  have hd := Declined.refl hs starts
  refine Yields.get (Yields.read (growableSequence_gives hv) hd fun (slot, b) hblock => ?_)
  obtain ⟨hslot, hb, hseq, hmutable⟩ := hblock
  have hform := Body.isSequence_of_fits (hs.coherent.fits slot b hb) hseq
  rcases Body.seqPop?_cases hform (hs.coherent.valid slot b hb) with
    ⟨hpop, _⟩ | ⟨item, body, hpop, hadj, hlist⟩
  · exact Yields.look_eq hpop (Yields.throw (hd _))
  · have hitem : b.body.Supplies item := Body.supplies_of_mem (by simp [hlist])
    exact Yields.look_eq hpop (Yields.set_bind (Yields.pure (hs.revise hslot hb hmutable hadj
      (by simp) (by simpa using hs.coherent.usable_supplied hb hitem) (by simp [hlist]))))

/-- Each byte is changed as its position says. -/
theorem updateBytes_revises (hv : h.Usable admits v) (change : Nat → UInt8 → UInt8) :
    Yields admits (updateBytes v change) h
      (fun _ h' => h.Completed admits starts (.sequence v) [] h' ∧
        h.Revises v h' fun _ items =>
          items.mapIdx fun i item => .ofUnit (change i (Body.byteOf item)).toNat)
      (h.Declined admits starts) := by
  have hd := Declined.refl hs starts
  refine Yields.get (Yields.read (mutableSequence_gives hv) hd fun (slot, b) hblock => ?_)
  obtain ⟨hslot, hb, hseq, hmutable⟩ := hblock
  have hvalid := hs.coherent.valid slot b hb
  dsimp only
  split
  · exact Yields.throw_bind (hd _)
  next hshape =>
    obtain ⟨seq, hbody⟩ := Body.exists_bytes (hs.coherent.fits slot b hb) (by simpa using hshape)
    rw [hbody] at hvalid ⊢
    have hadj : b.body.Adjusts (.bytes (seq.mapIdx change)) [] :=
      hbody ▸ Body.adjusts_bytes (BoundedSeq.adjusts_mapIdx hvalid change) []
    refine Yields.set (hs.revise hslot hb hmutable hadj (by simp) (by simp) ?_)
    rw [hbody, Body.elements, Body.elements, BoundedSeq.toList_mapIdx hvalid]
    refine List.ext_getElem? fun i => ?_
    simp only [List.getElem?_map, List.getElem?_mapIdx, Option.map_map]
    refine congrArg (Option.map · seq.toList[i]?) (funext fun unit => ?_)
    simp only [Function.comp_apply, Body.byteOf_ofUnit]

/-- A sequence that may grow gets more cells, or there is no memory for them. -/
theorem growSequence_yields (hroots : ∀ w ∈ roots, h.Usable admits w) {slot : Nat} {b : Block}
    (hb : h.block? slot = some b) (hseq : b.header.kind.isSequence = true)
    (hmutable : b.header.kind.isMutable = true) {operands : List Value}
    (hoperands : ∀ w ∈ operands, h.Usable admits w) {least capacity : Nat}
    (hleast : b.body.seqCapacity = .ok least) (hle : least ≤ capacity) :
    Yields admits (growSequence roots slot b.header.kind operands capacity) h
      (fun _ h' => ∃ body, b.body.Grows capacity body ∧
        h.Edited admits (roots ++ Value.ofSlot slot :: operands) slot b.header.kind body h')
      (fun refusal h' => refusal.isOutOfMemory = true ∧
        h.Declined admits (roots ++ Value.ofSlot slot :: operands) refusal h') := by
  have hfits := hs.coherent.fits slot b hb
  have hform := Body.isSequence_of_fits hfits hseq
  obtain ⟨body, hgrow, hgrows⟩ :=
    Body.seqGrow_spec hform (hs.coherent.valid slot b hb) hleast hle
  refine Yields.get (Yields.read_or (checkSequence_gives hseq capacity)
    (fun _ hrefused => ⟨isOutOfMemory_of_checkSequence hrefused, Declined.refl hs _ _⟩)
    fun size hsize => ?_)
  obtain ⟨_, unit, hunit, hblock⟩ := hsize
  have hfits' : body.fits b.header.kind = true := (hgrows.fits_eq _).trans hfits
  have ha : h.Accepts admits b.header.kind body :=
    ⟨hfits', hgrows.valid, fun w hw => hs.coherent.edges_usable slot b hb w (hgrows.edges_eq ▸ hw),
      fun table hbody => absurd hbody (hgrows.isSequence.ne_hash table)⟩
  refine (resize_yields hs hb hroots hoperands hgrow
    (Body.blockSize_of_seqCapacity hfits' hgrows.seqCapacity_eq hunit hblock) ha
    (fun w hw => hgrows.edges_eq ▸ hw) (Kind.isFrozen_of_isMutable hmutable)).mono
    (fun _ h' he => ⟨body, hgrows, he⟩) fun _ _ hd => hd

/-- Items can be added to a sequence that has cells for them. -/
theorem pushItems_yields {slot capacity : Nat} {b : Block} (hslot : v.slot? = some slot)
    (hb : h.block? slot = some b) (hform : b.body.IsSequence)
    (hfrozen : b.header.kind.isFrozen = false) (hcapacity : b.body.seqCapacity = .ok capacity)
    {items : List Value} (hroom : b.body.elements.length + items.length ≤ capacity)
    (hitems : ∀ w ∈ items, h.Usable admits w) {R : Refusal → Heap → Prop} :
    Yields admits (pushItems slot items) h
      (fun _ h' => h.Retains admits (.sequence v) h' ∧ ∃ b', h'.block? slot = some b' ∧
        b'.body.elements = b.body.elements ++ items.map b.body.element) R := by
  obtain ⟨body, hpush, hadj, _, hlist⟩ :=
    Body.seqPushAll_spec hform (hs.coherent.valid slot b hb) hcapacity hroom
  refine Yields.get (Yields.look_eq (body_eq hb) (Yields.look_eq hpush (Yields.set
    ⟨hs.adjust hb hfrozen hadj hitems fun halike => ?_, _, block?_setBody_self hb body, hlist⟩)))
  exact Target.allows_sequence hslot halike hadj.table_iff

omit hs [Digest] in
/-- Two words that refer to the same slot hold the same. -/
theorem holds_of_slot?_eq (h : Heap) (roots operands : List Value) {u : Value}
    (hslot : u.slot? = v.slot?) :
    ∀ w ∈ roots ++ v :: operands, h.Holds (roots ++ u :: operands) w := by
  intro w hw s hs
  have hmem : w ∈ roots ++ u :: operands ∨ w = v := by
    simp only [List.mem_append, List.mem_cons] at hw ⊢
    tauto
  rcases hmem with hmem | rfl
  · exact .start hmem hs
  · exact .start (List.mem_append_right _ (List.mem_cons_self ..)) (hslot.trans hs)

omit hs [Digest] in
/-- The handle of a slot stands for any word that refers to it. -/
theorem held_ofSlot (h : Heap) (roots operands : List Value) {slot : Nat}
    (hslot : v.slot? = some slot) (s : Nat) :
    h.Held (roots ++ Value.ofSlot slot :: operands) s ↔ h.Held (roots ++ v :: operands) s := by
  have hsame : (Value.ofSlot slot).slot? = v.slot? :=
    (Value.slot?_ofSlot (Value.lt_of_slot? hslot)).trans hslot.symm
  exact held_congr (holds_of_slot?_eq h roots operands hsame.symm)
    (holds_of_slot?_eq h roots operands hsame) s

/-- A sequence that has grown is still the one block that changed. -/
theorem Edited.grown {slot capacity : Nat} {b : Block} {body : Body} {h' : Heap}
    (he : h.Edited admits starts slot b.header.kind body h') (hslot : v.slot? = some slot)
    (hb : h.block? slot = some b) (hfrozen : b.header.kind.isFrozen = false)
    (hform : b.body.IsSequence) (hgrows : b.body.Grows capacity body) :
    h.Completed admits starts (.sequence v) [] h' := by
  refine he.completed hb fun b' hb' => ?_
  have halike := he.alike hs.coherent hb hfrozen hb'
  obtain ⟨block, hblock, _, rfl⟩ := he.block
  cases hb'.symm.trans hblock
  exact Target.allows_sequence hslot halike fun t =>
    iff_of_false (hgrows.isSequence.ne_hash t) (hform.ne_hash t)

/-- A sequence that may grow takes all of some items, or there is no memory for them. -/
theorem pushGrowing_yields (hroots : ∀ w ∈ roots, h.Usable admits w) {slot capacity : Nat}
    {b : Block} (hslot : v.slot? = some slot) (hb : h.block? slot = some b)
    (hseq : b.header.kind.isSequence = true) (hmutable : b.header.kind.isMutable = true)
    (hcapacity : b.body.seqCapacity = .ok capacity) {items : List Value}
    (hitems : ∀ w ∈ items, h.Usable admits w) :
    Yields admits (do
      if capacity < b.body.elements.length + items.length then
        growSequence roots slot b.header.kind items
          (grownCapacity capacity (b.body.elements.length + items.length))
      pushItems slot items) h
      (fun _ h' => h.Completed admits (roots ++ v :: items) (.sequence v) [] h' ∧
        ∃ b', h'.block? slot = some b' ∧
          b'.body.elements = b.body.elements ++ items.map b.body.element)
      (fun refusal h' => refusal.isOutOfMemory = true ∧
        h.Declined admits (roots ++ v :: items) refusal h') := by
  have hfrozen := Kind.isFrozen_of_isMutable hmutable
  have hform := Body.isSequence_of_fits (hs.coherent.fits slot b hb) hseq
  dsimp only
  split
  next hfull =>
    -- the items are operands of the growth, and so a collection keeps them
    have hle : capacity ≤ grownCapacity capacity (b.body.elements.length + items.length) := by
      rw [grownCapacity]
      omega
    have hheld := held_ofSlot h roots items hslot
    refine Yields.bind ((growSequence_yields hs hroots hb hseq hmutable hitems hcapacity hle).mono
      (fun _ _ hgrown => hgrown) fun _ _ hd => ⟨hd.1, hd.2.starts_congr hheld⟩)
      fun _ h' hgrown => ?_
    obtain ⟨body, hgrows, he⟩ := hgrown
    have hdone := (he.grown hs hslot hb hfrozen hform hgrows).starts_congr hheld
    obtain ⟨b', hb', hkind, rfl⟩ := he.block
    refine (pushItems_yields he.sound hslot hb' hgrows.isSequence (hkind ▸ hfrozen)
      hgrows.seqCapacity_eq ?_ (fun w hw => ?_)).mono (fun _ h'' hpushed => ?_) fun _ _ hd => hd
    · rw [hgrows.elements_eq, grownCapacity]
      omega
    · exact he.usable (hitems w hw)
        (holds_of_mem (List.mem_append_right _ (List.mem_cons_of_mem _ hw)))
    · obtain ⟨hr, b'', hb'', hlist⟩ := hpushed
      refine ⟨hdone.retains hr rfl, b'', hb'', ?_⟩
      rw [hlist, hgrows.elements_eq, hgrows.element_eq]
  next hroom =>
    refine (pushItems_yields hs hslot hb hform hfrozen hcapacity (by omega) hitems).mono
      (fun _ h' hpushed => ?_) fun _ _ hd => hd
    exact ⟨hpushed.1.completed (by simp) id, hpushed.2⟩

/-- The elements are appended in order, and the collection that growing may start keeps the
sequence and the elements. -/
theorem seqExtend_revises (hroots : ∀ w ∈ roots, h.Usable admits w) (hv : h.Usable admits v)
    {items : List Value} (hitems : ∀ w ∈ items, h.Usable admits w) :
    Yields admits (seqExtend roots v items) h
      (fun _ h' => h.Completed admits (roots ++ v :: items) (.sequence v) [] h' ∧
        h.Revises v h' fun kind before => before ++ items.map kind.element)
      (h.Declined admits (roots ++ v :: items)) := by
  have hd := Declined.refl hs (roots ++ v :: items)
  refine Yields.get (Yields.read (growableSequence_gives hv) hd fun (slot, b) hblock => ?_)
  obtain ⟨hslot, hb, hseq, hmutable⟩ := hblock
  have hfits := hs.coherent.fits slot b hb
  obtain ⟨capacity, hn, hcapacity, _⟩ :=
    Body.exists_counts (Body.isSequence_of_fits hfits hseq) (hs.coherent.valid slot b hb)
  refine Yields.read (Gives.forM fun item hitem => checkElement_gives (hitems item hitem) _) hd
    fun _ htakes => Yields.look_eq hn (Yields.look_eq hcapacity ?_)
  refine (pushGrowing_yields hs hroots hslot hb hseq hmutable hcapacity hitems).mono
    (fun _ h' hpushed => ?_) fun _ _ hd => hd.2
  obtain ⟨hdone, b', hb', hlist⟩ := hpushed
  refine ⟨hdone, slot, b, b', hslot, hb, hb', hlist.trans (congrArg _ ?_)⟩
  exact List.map_congr_left fun item hitem => Body.element_eq hfits (htakes item hitem)

/-- Reserving room leaves the items as they are. -/
theorem seqReserve_revises (hroots : ∀ w ∈ roots, h.Usable admits w) (hv : h.Usable admits v)
    (capacity : Nat) :
    Yields admits (seqReserve roots v capacity) h
      (fun _ h' => h.Completed admits (roots ++ [v]) (.sequence v) [] h' ∧
        h.Revises v h' fun _ items => items)
      (h.Declined admits (roots ++ [v])) := by
  refine Yields.get (Yields.read (growableSequence_gives hv) (Declined.refl hs _)
    fun (slot, b) hblock => ?_)
  obtain ⟨hslot, hb, hseq, hmutable⟩ := hblock
  have hform := Body.isSequence_of_fits (hs.coherent.fits slot b hb) hseq
  obtain ⟨least, _, hleast, _⟩ := Body.exists_counts hform (hs.coherent.valid slot b hb)
  refine Yields.look_eq hleast ?_
  split
  next hless =>
    have hheld := held_ofSlot h roots [] hslot
    refine (growSequence_yields hs hroots hb hseq hmutable (by simp) hleast
      (Nat.le_of_lt hless)).mono (fun _ h' hgrown => ?_) fun _ _ hd => hd.2.starts_congr hheld
    obtain ⟨body, hgrows, he⟩ := hgrown
    obtain ⟨b', hb', _, hbody⟩ := he.block
    refine ⟨(he.grown hs hslot hb (Kind.isFrozen_of_isMutable hmutable) hform hgrows).starts_congr
      hheld, slot, b, b', hslot, hb, hb', ?_⟩
    rw [hbody, hgrows.elements_eq]
  next =>
    exact Yields.pure ⟨(Retains.refl hs _).completed (by simp) id, slot, b, b, hslot, hb, hb, rfl⟩

omit [Digest] hs in
/-- An element that is read off a sequence is usable. -/
theorem seqGet_gives [Digest] (hc : h.Coherent admits) (hv : h.Usable admits v) (index : Nat) :
    Gives admits (h.seqGet v index) (h.Usable admits) := by
  refine Gives.bind (expectBlock_gives hv ..) fun (slot, b) hblock => ?_
  obtain ⟨hslot, hb, hseq⟩ := hblock
  have hform := Body.isSequence_of_fits (hc.fits slot b hb) hseq
  obtain ⟨_, hn, _⟩ := Body.exists_counts hform (hc.valid slot b hb)
  refine Gives.look_eq (Body.seqGet?_eq hform index) ?_
  cases hget : b.body.elements[index]? with
  | none => exact Gives.look_eq hn (Gives.refuse ..)
  | some item =>
      exact Gives.ok (hc.usable_supplied hb (Body.supplies_of_mem (List.mem_of_getElem? hget)))

/-! ## Records -/

omit hs [Digest] in
theorem record_gives (hv : h.Usable admits v) (kind : Kind) :
    Gives admits (h.record v kind) fun (slot, body) => v.slot? = some slot ∧
      ∃ b, h.block? slot = some b ∧ b.header.kind = kind ∧ b.body = body := by
  refine Gives.bind (expectBlock_gives hv ..) fun (slot, b) hblock => ?_
  obtain ⟨hslot, hb, hkind⟩ := hblock
  exact Gives.ok ⟨hslot, b, hb, beq_iff_eq.mp hkind, rfl⟩

omit hs [Digest] in
theorem kindOf_eq {slot : Nat} {b : Block} (hslot : v.slot? = some slot)
    (hb : h.block? slot = some b) : h.kindOf v = .ok b.header.kind := by
  rw [kindOf, hslot]
  exact congrArg (· >>= fun b : Block => pure b.header.kind) (block_eq hb)

omit hs [Digest] in
/-- A reference to a block of an accepted kind passes. -/
theorem expectSlot_eq {slot : Nat} {b : Block} (hslot : v.slot? = some slot)
    (hb : h.block? slot = some b) (expected : String) (accept : Kind → Bool)
    (haccept : accept b.header.kind = true) : h.expectSlot v expected accept = .ok slot := by
  simp only [expectSlot, kindOf_eq hslot hb, liftM_ok_bind, hslot, haccept, if_true]
  rfl

omit hs [Digest] in
theorem expectBlock_eq {slot : Nat} {b : Block} (hslot : v.slot? = some slot)
    (hb : h.block? slot = some b) (expected : String) (accept : Kind → Bool)
    (haccept : accept b.header.kind = true) :
    h.expectBlock v expected accept = .ok (slot, b) := by
  rw [expectBlock, expectSlot_eq hslot hb expected accept haccept]
  exact liftM_bind_eq (block_eq hb) fun b => pure (slot, b)

omit hs [Digest] in
theorem record_eq {slot : Nat} {b : Block} (hslot : v.slot? = some slot)
    (hb : h.block? slot = some b) : h.record v b.header.kind = .ok (slot, b.body) := by
  rw [record, expectBlock_eq hslot hb _ (· == b.header.kind) (beq_self_eq_true _)]
  rfl

omit hs [Digest] in
/-- What passes is a reference to a block of an accepted kind. -/
theorem expectSlot_eq_ok {slot : Nat} {expected : String} {accept : Kind → Bool}
    (hslot : h.expectSlot v expected accept = .ok slot) :
    v.slot? = some slot ∧ ∃ b, h.block? slot = some b ∧ accept b.header.kind = true := by
  cases hv : v.slot? with
  | none =>
      rw [expectSlot, hv] at hslot
      cases hkind : h.kindOf v <;> rw [hkind] at hslot <;> cases hslot
  | some s =>
      cases hb : h.block? s with
      | none =>
          simp only [expectSlot, kindOf, hv, block, hb] at hslot
          cases hslot
      | some b =>
          rw [expectSlot, kindOf_eq hv hb, liftM_ok_bind, hv] at hslot
          dsimp only at hslot
          split at hslot
          next haccept =>
            cases hslot
            exact ⟨rfl, b, hb, haccept⟩
          next => cases hslot

omit hs [Digest] in
/-- Only a record of the kind has a part that can be read. -/
theorem recordPart_eq_ok {α : Type} {kind : Kind} {part? : Body → Option α} {part : α}
    {form : α → Body} (hform : ∀ body part, part? body = some part → body = form part)
    (hpart : h.recordPart v kind part? = .ok part) :
    ∃ slot b, v.slot? = some slot ∧ h.block? slot = some b ∧ b.header.kind = kind ∧
      b.body = form part := by
  cases hslot : h.expectSlot v kind.name (· == kind) with
  | error stop =>
      rw [recordPart, record, expectBlock, hslot] at hpart
      cases hpart
  | ok slot =>
      obtain ⟨hv, b, hb, hkind⟩ := expectSlot_eq_ok hslot
      rw [beq_iff_eq] at hkind
      subst hkind
      rw [recordPart, record_eq hv hb] at hpart
      dsimp only [bind, Except.bind] at hpart
      split at hpart
      next found hfound =>
        cases hpart
        exact ⟨slot, b, hv, hb, rfl, hform _ _ hfound⟩
      next => cases hpart

omit [Digest] hs in
/-- A part of a record that is there in every payload of its kind. -/
theorem recordPart_gives [Digest] {α : Type} (hc : h.Coherent admits) (hv : h.Usable admits v)
    {kind : Kind} {part? : Body → Option α} {form : α → Body}
    (hpart : ∀ body, body.fits kind = true → ∃ a, part? body = some a ∧ body = form a) :
    Gives admits (h.recordPart v kind part?) fun a => ∃ slot b, v.slot? = some slot ∧
      h.block? slot = some b ∧ b.header.kind = kind ∧ b.body = form a := by
  refine Gives.bind (record_gives hv kind) fun (slot, body) hrecord => ?_
  obtain ⟨hslot, b, hb, rfl, rfl⟩ := hrecord
  obtain ⟨a, ha, hform⟩ := hpart b.body (hc.fits slot b hb)
  dsimp only
  rw [ha]
  exact Gives.ok ⟨slot, b, hslot, hb, rfl, hform⟩

theorem frameBody_gives (hv : h.Usable admits v) :
    Gives admits (h.frameBody v) fun f => ∃ slot b, v.slot? = some slot ∧
      h.block? slot = some b ∧ b.header.kind = .frame ∧ b.body = .frame f := by
  refine recordPart_gives hs.coherent hv fun body hfits => ?_
  cases body <;> first | exact absurd hfits Bool.false_ne_true | exact ⟨_, rfl, rfl⟩

theorem threadBody_gives (hv : h.Usable admits v) :
    Gives admits (h.threadBody v) fun t => ∃ slot b, v.slot? = some slot ∧
      h.block? slot = some b ∧ b.header.kind = .thread ∧ b.body = .thread t := by
  refine recordPart_gives hs.coherent hv fun body hfits => ?_
  cases body <;> first | exact absurd hfits Bool.false_ne_true | exact ⟨_, rfl, rfl⟩

/-- A field of a record that is there can be assigned. -/
theorem assignField_yields {slot : Nat} {b : Block} (hslot : v.slot? = some slot)
    (hb : h.block? slot = some b) (field : Field) (hkind : b.header.kind = field.kind)
    (hfrozen : field.kind.isFrozen = false) {value : Value} (hvalue : h.Usable admits value)
    {R : Refusal → Heap → Prop} :
    Yields admits (assignField v field value) h
      (fun _ h' => h.Retains admits (.block v) h' ∧ ∃ b', h'.block? slot = some b' ∧
        b'.header.kind = field.kind) R := by
  have hfits := hs.coherent.fits slot b hb
  obtain ⟨body, hassign, hadj, helements⟩ :=
    field.assign?_spec value (hkind ▸ hfits) (hs.coherent.valid slot b hb)
  rw [← hkind] at hfrozen
  refine Yields.get (Yields.read_eq (hkind ▸ record_eq hslot hb) ?_)
  dsimp only
  rw [hassign]
  exact Yields.set ⟨hs.adjust hb hfrozen hadj (by simpa using hvalue)
    fun halike => Target.allows_block hslot halike hadj.table_iff helements,
    _, block?_setBody_self hb body, hkind⟩

/-- A field is stored in a record of its kind. -/
theorem assignField_ends (hv : h.Usable admits v) (field : Field)
    (hfrozen : field.kind.isFrozen = false) {value : Value} (hvalue : h.Usable admits value) :
    Ends admits (assignField v field value) h starts (.block v) fun _ => [] := by
  by_cases hrecord : ∃ slot b, v.slot? = some slot ∧ h.block? slot = some b ∧
      b.header.kind = field.kind
  · obtain ⟨slot, b, hslot, hb, hkind⟩ := hrecord
    exact (assignField_yields hs hslot hb field hkind hfrozen hvalue).mono
      (fun _ h' hassigned => hassigned.1.completed (by simp) id) fun _ _ hd => hd
  · refine Yields.get (ends_read hs (record_gives hv field.kind) fun (slot, body) hfound => ?_)
    obtain ⟨hslot, b, hb, hkind, _⟩ := hfound
    exact absurd ⟨slot, b, hslot, hb, hkind⟩ hrecord

/-! ## Frames and threads -/

/-- A change of a frame ends well if it adjusts the frame and returns values that the frame
held. -/
theorem changeFrame_ends {α : Type} (hv : h.Usable admits v)
    {change : FrameBody → Except Refusal (α × FrameBody)} (added : List Value)
    {results : α → List Value}
    (hchange : ∀ f a f', f.stack.Valid → change f = .ok (a, f') →
      (Body.frame f).Adjusts (.frame f') added ∧ ∀ w ∈ results a, w ∈ (Body.frame f).edges)
    (hadded : ∀ w ∈ added, h.Usable admits w) :
    Ends admits (changeFrame v change) h starts (.block v) results := by
  refine Yields.get (ends_read hs (record_gives hv .frame) fun (slot, body) hrecord => ?_)
  obtain ⟨hslot, b, hb, hkind, rfl⟩ := hrecord
  have hfits := hs.coherent.fits slot b hb
  have hvalid := hs.coherent.valid slot b hb
  have hedges := hs.coherent.edges_usable slot b hb
  dsimp only
  cases hbody : b.body with
  | frame f =>
      dsimp only
      rw [hbody] at hvalid hedges
      cases hresult : change f with
      | error refusal => exact Yields.throw (Declined.refl hs ..)
      | ok changed =>
          obtain ⟨hadj, hresults⟩ := hchange f changed.1 changed.2 hvalid hresult
          refine Yields.set_bind (Yields.pure ?_)
          refine (hs.adjust hb (by rw [hkind]; rfl) (hbody ▸ hadj) hadded
            fun halike => ?_).completed
            (fun w hw => hedges w (hresults w hw)) id
          exact Target.allows_block hslot halike (hbody ▸ hadj.table_iff) (by rw [hbody]; rfl)
  | _ =>
      rw [hbody, hkind] at hfits
      exact absurd hfits Bool.false_ne_true

theorem frameSetLocal_ends (hv : h.Usable admits v) (index : Nat) {value : Value}
    (hvalue : h.Usable admits value) :
    Ends admits (frameSetLocal v index value) h starts (.block v) fun _ => [] := by
  refine changeFrame_ends hs hv [value] (fun f a f' hvalid hchange => ?_)
    (by simpa using hvalue)
  split at hchange
  next hlt =>
    cases hchange
    refine ⟨Body.adjusts_frame hvalid (by simp) rfl fun w hw => ?_, by simp⟩
    have hlocals : w ∈ (f.locals.setIfInBounds index value).toList →
        w ∈ f.locals.toList ∨ w = value := by
      rw [Array.toList_setIfInBounds]
      exact List.mem_or_eq_of_mem_set
    simp only [Body.edges, List.mem_append, List.mem_singleton] at hw ⊢
    tauto
  next => cases hchange

theorem framePush_ends (hv : h.Usable admits v) {value : Value}
    (hvalue : h.Usable admits value) :
    Ends admits (framePush v value) h starts (.block v) fun _ => [] := by
  refine changeFrame_ends hs hv [value] (fun f a f' hvalid hchange => ?_)
    (by simpa using hvalue)
  cases hpush : f.stack.push? value with
  | none => simp [hpush] at hchange
  | some stack =>
      simp only [hpush, Except.ok.injEq, Prod.mk.injEq] at hchange
      obtain ⟨_, rfl⟩ := hchange
      obtain ⟨hadj, _⟩ := BoundedSeq.adjusts_push? hvalid hpush
      refine ⟨Body.adjusts_frame hadj.valid rfl hadj.capacity_eq fun w hw => ?_, by simp⟩
      have hstack := hadj.mem w
      simp only [Body.edges, List.mem_append] at hw ⊢
      tauto

theorem framePop_ends (hv : h.Usable admits v) :
    Ends admits (framePop v) h starts (.block v) fun value => [value] := by
  refine changeFrame_ends hs hv [] (fun f value f' hvalid hchange => ?_) (by simp)
  cases hpop : f.stack.pop? with
  | none => simp [hpop] at hchange
  | some last =>
      simp only [hpop, Except.ok.injEq, Prod.mk.injEq] at hchange
      obtain ⟨rfl, rfl⟩ := hchange
      obtain ⟨hadj, hmem⟩ := BoundedSeq.adjusts_pop? hvalid hpop
      refine ⟨Body.adjusts_frame hadj.valid rfl hadj.capacity_eq fun w hw => ?_, fun w hw => ?_⟩
      · have hstack := hadj.mem w
        simp only [Body.edges, List.mem_append] at hw ⊢
        tauto
      · rw [List.mem_singleton.mp hw]
        exact List.mem_append_right _ hmem

/-- A local of a frame is usable. -/
theorem frameLocal_gives (hv : h.Usable admits v) (index : Nat) :
    Gives admits (h.frameLocal v index) (h.Usable admits) := by
  refine Gives.bind (frameBody_gives hs hv) fun f hframe => ?_
  obtain ⟨slot, b, _, hb, _, hbody⟩ := hframe
  cases hlocal : f.locals[index]? with
  | none => exact Gives.refuse ..
  | some value =>
      refine Gives.ok (hs.coherent.edges_usable slot b hb value ?_)
      rw [hbody]
      have hmem : value ∈ f.locals.toList :=
        List.mem_of_getElem? (Array.getElem?_toList ▸ hlocal)
      exact List.mem_append_left _ (List.mem_append_right _ hmem)

/-- The operands on the stack of a frame are usable. -/
theorem frameStack_gives (hv : h.Usable admits v) :
    Gives admits (h.frameStack v) fun values => ∀ w ∈ values.toList, h.Usable admits w := by
  refine Gives.bind (frameBody_gives hs hv) fun f hframe => ?_
  obtain ⟨slot, b, _, hb, _, hbody⟩ := hframe
  refine Gives.ok fun w hw => hs.coherent.edges_usable slot b hb w ?_
  rw [hbody]
  exact List.mem_append_right _ hw

theorem threadEnter_ends {thread frame : Value} (hthread : h.Usable admits thread)
    (hframe : h.Usable admits frame) :
    Ends admits (threadEnter thread frame) h starts (.block thread) fun _ => [] :=
  Yields.get (ends_read hs (frameBody_gives hs hframe) fun _ _ =>
    assignField_ends hs hthread .threadFrame rfl hframe)

theorem threadReturn_ends {thread result : Value} (hthread : h.Usable admits thread)
    (hresult : h.Usable admits result) :
    Ends admits (threadReturn thread result) h starts (.block thread) fun _ => [] := by
  refine Yields.get (ends_read hs (threadBody_gives hs hthread) fun t ht => ?_)
  obtain ⟨slot, b, hslot, hb, hkind, hbody⟩ := ht
  have hcurrent : h.Usable admits t.frame := by
    refine hs.coherent.edges_usable slot b hb t.frame ?_
    rw [hbody]
    exact List.mem_cons_self ..
  refine ends_read hs (frameBody_gives hs hcurrent) fun f hf => ?_
  obtain ⟨fslot, fb, _, hfb, _, hfbody⟩ := hf
  have hparent : h.Usable admits f.parent := by
    refine hs.coherent.edges_usable fslot fb hfb f.parent ?_
    rw [hfbody]
    exact List.mem_cons_self ..
  refine Yields.bind (assignField_yields hs hslot hb .threadFrame hkind rfl hparent)
    fun _ h' hassigned => ?_
  obtain ⟨hr, b', hb', hkind'⟩ := hassigned
  split
  next =>
    -- the thread is still there, so that this assignment cannot be refused
    exact (assignField_yields hr.sound hslot hb' .threadResult hkind' rfl
      (hr.usable result hresult)).mono
      (fun _ _ hassigned' => (hr.trans hassigned'.1).completed (by simp) id) fun _ _ hd => hd
  next => exact Yields.pure (hr.completed (by simp) id)

/-! ## Pins, registers and collections -/

/-- A pin changes the header of a block and nothing else. -/
theorem setPinned_spec (hv : h.Usable admits v) (pinned : Bool) :
    ∃ h', h.setPinned v pinned = .ok h' ∧ h.Retains admits (.block v) h' ∧
      ∀ s b b', h.block? s = some b → h'.block? s = some b' → b'.body = b.body := by
  cases hslot : v.slot? with
  | none =>
      refine ⟨h, by rw [setPinned, hslot]; rfl, Retains.refl hs _, fun s b b' hb hb' => ?_⟩
      cases hb.symm.trans hb'
      rfl
  | some slot =>
      obtain ⟨b, hb⟩ := hv.block? hslot
      have hfits := hs.coherent.fits slot b hb
      have halike : b.Alike { b with header := { b.header with pinned } } :=
        ⟨rfl, hfits, hfits, fun _ => rfl⟩
      obtain ⟨hsound, hw⟩ := hs.modifyBlock hb
        (fun b => { b with header := { b.header with pinned } }) rfl rfl rfl
        (hs.coherent.accepts hb) rfl (Or.inl halike)
      refine ⟨_, ?_, hw.retains hsound hb
        (Target.allows_block hslot halike (fun _ => Iff.rfl) rfl), fun s found b' hfound hb' => ?_⟩
      · rw [setPinned, hslot]
        exact congrArg (· >>= fun _ => pure _) (block_eq hb)
      · rcases hw.cases hb' with ⟨rfl, rfl⟩ | ⟨_, hsame⟩
        · cases hb.symm.trans hfound
          rfl
        · cases hfound.symm.trans hsame
          rfl

/-- Pinning a block changes its header only. -/
theorem setPinned_ends (hv : h.Usable admits v) (pinned : Bool) :
    Ends admits (do set (← (← get).setPinned v pinned)) h starts (.block v) fun _ => [] := by
  obtain ⟨h', hpinned, hr, _⟩ := setPinned_spec hs hv pinned
  exact Yields.get (Yields.look_eq hpinned (Yields.set (hr.completed (by simp) id)))

theorem protect_ends (hv : h.Usable admits v) :
    Ends admits (modify (·.protect v)) h starts .registers fun _ => [] := by
  have hprotect : h.protect v = h.protectAll [v] := by simp [protect, protectAll]
  have hr : h.Retains admits .registers (h.protectAll [v]) :=
    ⟨hs.protectAll (by simpa using hv), rfl, Nat.le_refl _, rfl,
      fun hother => absurd hother Bool.false_ne_true,
      fun s b hb => ⟨b, hb, Target.allows_self _ s b⟩, fun _ b hb => ⟨b, hb⟩⟩
  exact Yields.modify (hprotect ▸ hr.completed (by simp) id)

theorem releaseRegisters_ends (mark : Nat) :
    Ends admits (modify (·.releaseRegisters mark)) h starts .registers fun _ => [] := by
  have hr : h.Retains admits .registers (h.releaseRegisters mark) :=
    ⟨hs.releaseRegisters mark, rfl, Nat.le_refl _, rfl,
      fun hother => absurd hother Bool.false_ne_true,
      fun s b hb => ⟨b, hb, Target.allows_self _ s b⟩, fun _ b hb => ⟨b, hb⟩⟩
  exact Yields.modify (hr.completed (by simp) id)

omit hs [Digest] in
/-- A cycle that succeeds is the collection. -/
theorem collect_eq {report : CycleReport} {h' : Heap}
    (hcycle : h.cycle roots [] = .ok (report, h')) : collect roots h = .ok report h' := by
  have hyields : Yields (fun _ => False) (collect roots) h
      (fun found after => found = report ∧ after = h') fun _ _ => False :=
    Yields.get (Yields.look_eq hcycle (Yields.set_bind (Yields.pure ⟨rfl, rfl⟩)))
  obtain ⟨_, _, hcollect, rfl, rfl⟩ := hyields.exists_ok
  exact hcollect

/-- A collection that is asked for runs to its end. -/
theorem collect_spec (hroots : ∀ w ∈ roots, h.contains w = true) :
    ∃ report h', collect roots h = .ok report h' ∧ h.Collected roots h' := by
  obtain ⟨report, h', hcycle, hcollected⟩ := cycle_spec hs.consistent hs.coherent.edgesLive
    (fun w hw => (hs.coherent.registers_usable w hw).1) hroots (List.forall_mem_nil _)
  rw [List.append_nil] at hcollected
  exact ⟨report, h', collect_eq hcycle, hcollected⟩

/-- A collection that was asked for keeps what the roots reach and returns nothing. -/
theorem collect_ends (hroots : ∀ w ∈ roots, h.Usable admits w) :
    Ends admits (do let _ ← collect roots) h (roots ++ []) .nothing fun _ => [] := by
  obtain ⟨report, h', hcollect, hcollected⟩ := collect_spec hs fun w hw => (hroots w hw).1
  rw [List.append_nil]
  refine Yields.bind (Yields.of_ok (Q := fun _ h'' => h'' = h') hcollect rfl) fun _ h'' heq => ?_
  subst heq
  exact Yields.pure ⟨⟨hcollected.consistent, hcollected.coherent hs.coherent⟩, by simp, by simp,
    hcollected.pruned.carries⟩

end Changes

end Heap

end ObjectHeap
