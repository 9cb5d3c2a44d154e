import ObjectHeap.Operation
import ObjectHeap.Proofs.Retuning
import ObjectHeap.Proofs.Tables

/-! # Operations in lockstep

No operation is aware of the size of the mark stack: on a heap and on a retuned one it returns
the same or is refused for the same reason, and it leaves heaps that are paired again.
-/

namespace ObjectHeap

namespace Heap

/-! ## Construction -/

theorem newInt_blind (roots : List Value) (n : Int64) : Blind (newInt roots n) := by
  intro h k hp
  exact Locks.ite (fun _ => Locks.of_fault hp) fun _ => allocate_blind roots _ _ h k hp

/-- A sequence is refused on its kind and length alone, and is allocated otherwise. -/
theorem newSequence_blind (roots : List Value) (kind : Kind) (len : Nat) :
    Blind (newSequence roots kind len) := by
  intro h k hp
  refine Locks.ite (fun _ => Locks.refuse_bind hp) fun _ => ?_
  refine Locks.get (Locks.read hp (·.checkSequence kind len) (fun _ _ _ => rfl) fun _ => ?_)
  cases kind.shape <;> exact allocate_blind roots _ _ h k hp

theorem newBuffer_blind (roots : List Value) (capacity : Nat) : Blind (newBuffer roots capacity) :=
  Blind.read (·.checkSequence .buffer capacity) (fun _ _ _ => rfl) fun _ =>
    allocate_blind roots _ _

theorem newSysObj_blind (roots : List Value) (size : Nat) : Blind (newSysObj roots size) :=
  Blind.read (·.checkSequence .sysObj size) (fun _ _ _ => rfl) fun _ => allocate_blind roots _ _

theorem newDict_blind (roots : List Value) (hint : Nat) : Blind (newDict roots hint) :=
  Blind.read (·.hashCapacity hint true) (fun _ _ _ => rfl) fun _ =>
    Blind.lift fun _ _ => allocate_blind roots _ _

theorem newSet_blind (roots : List Value) (kind : Kind) (hint : Nat) :
    Blind (newSet roots kind hint) := by
  intro h k hp
  refine Locks.ite (fun _ => Locks.refuse_bind hp) fun _ => ?_
  refine Locks.get (Locks.read hp (·.hashCapacity hint false) (fun _ _ _ => rfl) fun _ => ?_)
  exact Locks.liftFault fun _ _ => allocate_blind roots _ _ h k hp

theorem newRange_blind (roots : List Value) (range : IntRange) : Blind (newRange roots range) := by
  intro h k hp
  exact Locks.ite (fun _ => Locks.refuse_bind hp) fun _ => allocate_blind roots _ _ h k hp

/-- A frame is checked for its size and allocated. -/
theorem newFrame_blind (roots : List Value) (parent function module : Value)
    (locals stack : Nat) : Blind (newFrame roots parent function module locals stack) :=
  Blind.read (·.checkSize (Layout.frameBlock? locals stack)) (fun _ _ _ => rfl) fun _ =>
    allocate_blind roots _ _

/-! ## Sequences -/

/-- An element is stored after checks that read the sequence and the element only. -/
theorem seqSet_blind (v : Value) (index : Nat) (item : Value) : Blind (seqSet v index item) := by
  intro h k hp
  refine Locks.get (Locks.read hp (·.mutableSequence v) (fun _ _ _ => rfl) fun found => ?_)
  obtain ⟨slot, block⟩ := found
  refine Locks.read hp (·.checkElement block.header.kind item) (fun _ _ _ => rfl) fun _ => ?_
  refine Locks.liftFault fun changed _ => ?_
  cases changed with
  | some body => exact Locks.set (hp.setBody slot body)
  | none => exact Locks.liftFault fun _ _ => Locks.refuse hp

/-- Growing a sequence is one resize. -/
theorem growSequence_blind (roots : List Value) (slot : Nat) (kind : Kind)
    (operands : List Value) (capacity : Nat) :
    Blind (growSequence roots slot kind operands capacity) :=
  Blind.read (·.checkSequence kind capacity) (fun _ _ _ => rfl) fun _ => resize_blind roots _ _ _ _

theorem pushItems_blind (slot : Nat) (items : List Value) : Blind (pushItems slot items) := by
  intro h k hp
  refine Locks.get (Locks.look hp (·.body slot) (fun _ _ _ => rfl) fun body => ?_)
  exact Locks.liftFault fun pushed _ => Locks.set (hp.setBody slot pushed)

/-- Extending checks its elements, may grow the sequence and then stores them one by one. -/
theorem seqExtend_blind (roots : List Value) (v : Value) (items : List Value) :
    Blind (seqExtend roots v items) := by
  intro h k hp
  refine Locks.get (Locks.read hp (·.growableSequence v) (fun _ _ _ => rfl) fun found => ?_)
  obtain ⟨slot, block⟩ := found
  refine Locks.read hp (·.checkElements block.header.kind items) (fun _ _ _ => rfl) fun _ => ?_
  refine Locks.liftFault fun len _ => Locks.liftFault fun capacity _ => ?_
  refine Locks.ite (fun _ => ?_) fun _ => pushItems_blind slot items h k hp
  exact (growSequence_blind roots slot _ items _).bind (fun _ => pushItems_blind slot items) h k hp

theorem seqPop_blind (v : Value) : Blind (seqPop v) := by
  intro h k hp
  refine Locks.get (Locks.read hp (·.growableSequence v) (fun _ _ _ => rfl) fun found => ?_)
  obtain ⟨slot, block⟩ := found
  refine Locks.liftFault fun popped _ => ?_
  cases popped with
  | some popped => exact Locks.set_bind (Locks.pure (hp.setBody slot popped.2))
  | none => exact Locks.refuse hp

theorem seqReserve_blind (roots : List Value) (v : Value) (capacity : Nat) :
    Blind (seqReserve roots v capacity) := by
  intro h k hp
  refine Locks.get (Locks.read hp (·.growableSequence v) (fun _ _ _ => rfl) fun found => ?_)
  obtain ⟨slot, block⟩ := found
  refine Locks.liftFault fun _ _ => Locks.ite (fun _ => ?_) fun _ => Locks.pure hp
  exact growSequence_blind roots slot _ [] capacity h k hp

theorem seqSetLen_blind (v : Value) (len : Nat) : Blind (seqSetLen v len) := by
  intro h k hp
  refine Locks.get (Locks.read hp (·.mutableSequence v) (fun _ _ _ => rfl) fun found => ?_)
  obtain ⟨slot, block⟩ := found
  refine Locks.liftFault fun changed _ => ?_
  cases changed with
  | some body => exact Locks.set (hp.setBody slot body)
  | none => exact Locks.liftFault fun _ _ => Locks.refuse hp

theorem updateBytes_blind (v : Value) (change : Nat → UInt8 → UInt8) :
    Blind (updateBytes v change) := by
  intro h k hp
  refine Locks.get (Locks.read hp (·.mutableSequence v) (fun _ _ _ => rfl) fun found => ?_)
  obtain ⟨slot, header, body⟩ := found
  refine Locks.ite (fun _ => Locks.refuse_bind hp) fun _ => ?_
  cases body with
  | bytes seq => exact Locks.set (hp.setBody slot _)
  | _ => exact Locks.fault

/-! ## Records and frames -/

theorem assignField_blind (v : Value) (field : Field) (value : Value) :
    Blind (assignField v field value) := by
  intro h k hp
  refine Locks.get (Locks.read hp (·.record v field.kind) (fun _ _ _ => rfl) fun found => ?_)
  obtain ⟨slot, body⟩ := found
  dsimp only
  cases field.assign? value body with
  | some body => exact Locks.set (hp.setBody slot body)
  | none => exact Locks.fault

/-- A change of a frame is computed from its payload. -/
theorem changeFrame_blind {α : Type} (frame : Value)
    (change : FrameBody → Except Refusal (α × FrameBody)) : Blind (changeFrame frame change) := by
  intro h k hp
  refine Locks.get (Locks.read hp (·.record frame .frame) (fun _ _ _ => rfl) fun found => ?_)
  obtain ⟨slot, body⟩ := found
  cases body with
  | frame f =>
      dsimp only
      cases change f with
      | ok changed => exact Locks.set_bind (Locks.pure (hp.setBody slot (.frame changed.2)))
      | error reason => exact Locks.refuse hp
  | _ => exact Locks.fault

theorem threadEnter_blind (thread frame : Value) : Blind (threadEnter thread frame) :=
  Blind.read (·.frameBody frame) (fun _ _ _ => rfl) fun _ => assignField_blind thread _ frame

theorem threadReturn_blind (thread result : Value) : Blind (threadReturn thread result) := by
  intro h k hp
  refine Locks.get (Locks.read hp (·.threadBody thread) (fun _ _ _ => rfl) fun body => ?_)
  refine Locks.read hp (·.frameBody body.frame) (fun _ _ _ => rfl) fun frame => ?_
  refine (assignField_blind thread _ frame.parent h k hp).bind fun _ h k hp => ?_
  exact Locks.ite (fun _ => assignField_blind thread _ result h k hp) fun _ => Locks.pure hp

/-! ## Tables -/

/-- A slot of a table is reserved by counting its entries and, if it is full, by a resize. -/
theorem reserveSlot_blind (roots : List Value) (slot : Nat) (operands : List Value) :
    Blind (reserveSlot roots slot operands) := by
  intro h k hp
  refine Locks.get (Locks.look hp (·.table slot) (fun _ _ _ => rfl) fun table => ?_)
  rw [show k.settings.loadFactor = h.settings.loadFactor from
      hp.part_eq (·.settings.loadFactor) fun _ _ _ => rfl,
    show k.settings.minHashCapacity = h.settings.minHashCapacity from
      hp.part_eq (·.settings.minHashCapacity) fun _ _ _ => rfl]
  refine Locks.ite (fun _ => Locks.pure hp) fun _ => ?_
  cases ProbeTable.capacityFor? (table.size + 1) h.settings.loadFactor
      h.settings.minHashCapacity with
  | none => exact Locks.read hp (·.checkSize none) (fun _ _ _ => rfl) fun _ => Locks.pure hp
  | some enough =>
      refine Locks.ite (fun _ => ?_) fun _ => ?_
      · exact Locks.liftFault fun rehashed _ => Locks.set (hp.setBody slot (.hash rehashed))
      · refine Locks.read hp (·.checkSize (Layout.hashBlock? table.keepsValues
          (max enough table.capacity))) (fun _ _ _ => rfl) fun size => ?_
        exact resize_blind roots slot operands size _ h k hp

theorem newInstance_blind (roots : List Value) (classRef : Value) :
    Blind (newInstance roots classRef) :=
  Blind.read (·.classBody classRef) (fun _ _ _ => rfl) fun _ =>
    ((newDict_blind roots 0).bind fun _ => allocate_blind roots _ _).protecting

theorem newModule_blind (roots : List Value) (name : Value) : Blind (newModule roots name) :=
  ((newDict_blind roots 0).bind fun _ => allocate_blind roots _ _).protecting

section Keys

variable [Digest]

omit [Digest] in
/-- A vacant slot is filled where a probe of the table says. -/
theorem fillVacant_blind (slot : Nat) (hash : UInt64) (key value : Value) :
    Blind (fillVacant slot hash key value) := by
  intro h k hp
  refine Locks.get (Locks.look hp (·.find slot key hash) (find_unaware slot key hash)
    fun probe => ?_)
  cases probe with
  | vacant index =>
      refine Locks.look hp (·.table slot) (fun _ _ _ => rfl) fun table => ?_
      exact Locks.liftFault fun changed _ => Locks.set (hp.setBody slot (.hash changed))
  | _ => exact Locks.fault

/-- An insertion looks for the key, replaces the value that it finds, and reserves and fills a
slot otherwise. -/
theorem hashInsert_blind (roots : List Value) (slot : Nat) (key value : Value) :
    Blind (hashInsert roots slot key value) := by
  intro h k hp
  refine Locks.get (Locks.read hp (·.hashOf key) (hashOf_unaware key) fun hash => ?_)
  refine Locks.look hp (·.find slot key hash) (find_unaware slot key hash) fun probe => ?_
  have hmissing : Blind (do
      reserveSlot roots slot [key, value]
      fillVacant slot hash key value) :=
    (reserveSlot_blind roots slot [key, value]).bind fun _ => fillVacant_blind slot hash key value
  cases probe with
  | found index =>
      refine Locks.look hp (·.table slot) (fun _ _ _ => rfl) fun table => ?_
      exact Locks.liftFault fun changed _ => Locks.set (hp.setBody slot (.hash changed))
  | full => exact hmissing h k hp
  | vacant index => exact hmissing h k hp

/-- A removal looks for the key and marks its slot as deleted. -/
theorem hashRemove_blind (slot : Nat) (key : Value) : Blind (hashRemove slot key) := by
  intro h k hp
  refine Locks.get (Locks.read hp (·.hashOf key) (hashOf_unaware key) fun hash => ?_)
  refine Locks.look hp (·.find slot key hash) (find_unaware slot key hash) fun probe => ?_
  cases probe with
  | found index =>
      refine Locks.look hp (·.table slot) (fun _ _ _ => rfl) fun table => ?_
      refine Locks.liftFault fun removed _ => ?_
      obtain ⟨_ | entry, table⟩ := removed
      · exact Locks.fault
      · exact Locks.set_bind (Locks.pure (hp.setBody slot (.hash table)))
  | _ => exact Locks.refuse hp

theorem dictPut_blind (roots : List Value) (dict key value : Value) :
    Blind (dictPut roots dict key value) :=
  Blind.read (·.dictSlot dict) (fun _ _ _ => rfl) fun slot => hashInsert_blind roots slot key value

theorem dictDel_blind (dict key : Value) : Blind (dictDel dict key) :=
  Blind.read (·.dictSlot dict) (fun _ _ _ => rfl) fun slot => hashRemove_blind slot key

theorem setPut_blind (roots : List Value) (s key : Value) : Blind (setPut roots s key) :=
  Blind.read (·.mutableSetSlot s) (fun _ _ _ => rfl) fun slot =>
    hashInsert_blind roots slot key Value.nil

theorem setDel_blind (s key : Value) : Blind (setDel s key) :=
  Blind.read (·.mutableSetSlot s) (fun _ _ _ => rfl) fun slot =>
    (hashRemove_blind slot key).bind fun _ => Blind.pure _

/-- A frozen set is a set that is filled item by item and then frozen. -/
theorem newFrozenSet_blind (roots : List Value) (items : List Value) :
    Blind (newFrozenSet roots items) := by
  refine Blind.read (·.checkKeys items) (checkKeys_unaware items) fun _ => Blind.protecting ?_
  refine (newSet_blind roots .frozenSet items.length).bind fun result => ?_
  refine Blind.read (·.expectSlot result "frozenset" (· == .frozenSet)) (fun _ _ _ => rfl)
    fun slot => ?_
  exact (Blind.forM fun item => hashInsert_blind roots slot item Value.nil).bind fun _ =>
    Blind.pure result

/-- An attribute is stored in the dictionary of its object. -/
theorem setAttr_blind (roots : List Value) (object name value : Value) :
    Blind (setAttr roots object name value) :=
  Blind.read (·.attributeDict object) (fun _ _ _ => rfl) fun dict =>
    (dictPut_blind roots dict name value).protecting

end Keys

/-! ## Iteration -/

/-- An item is read off the iterable, and is boxed if it does not fit in a word. -/
theorem itemAt_blind (roots : List Value) (iterator iterable : Value) (position : Nat) :
    Blind (itemAt roots iterator iterable position) := by
  intro h k hp
  refine Locks.get (Locks.look hp (·.kindOf iterable) (fun _ _ _ => rfl) fun kind => ?_)
  cases iterable.slot? with
  | none => exact Locks.refuse hp
  | some slot =>
      refine Locks.ite (fun _ => ?_) fun _ => Locks.ite (fun _ => ?_) fun _ =>
        Locks.ite (fun _ => ?_) fun _ => Locks.ite (fun _ => ?_) fun _ => Locks.refuse hp
      · refine Locks.read hp (·.text iterable) (fun _ _ _ => rfl) fun text => ?_
        cases charAtByte? text.toList position with
        | none => exact Locks.pure hp
        | some c =>
            exact ((allocate_blind roots _ _).protecting.bind fun _ => Blind.pure _) h k hp
      · refine Locks.look hp (·.body slot) (fun _ _ _ => rfl) fun body => ?_
        cases body with
        | range range =>
            refine Locks.liftFault fun nth _ => ?_
            cases nth with
            | none => exact Locks.pure hp
            | some n => exact ((newInt_blind roots n).protecting.bind fun _ => Blind.pure _) h k hp
        | _ => exact Locks.fault
      · refine Locks.read hp (·.len iterable) (fun _ _ _ => rfl) fun len => ?_
        refine Locks.ite (fun _ => Locks.pure hp) fun _ => ?_
        exact Locks.read hp (·.seqGet iterable position) (fun _ _ _ => rfl) fun _ => Locks.pure hp
      · exact Locks.look hp (·.table slot) (fun _ _ _ => rfl) fun _ => Locks.pure hp

/-- An iterator reads an item and stores its position. -/
theorem iterNext_blind (roots : List Value) (iterator : Value) :
    Blind (iterNext roots iterator) := by
  intro h k hp
  refine Locks.get (Locks.read hp (·.expectBlock iterator "iterator" (· == .iterator))
    (fun _ _ _ => rfl) fun found => ?_)
  obtain ⟨slot, header, body⟩ := found
  cases body with
  | iterator state =>
      refine (itemAt_blind roots iterator state.iterable state.position h k hp).bind
        fun item h k hp => ?_
      cases item with
      | none => exact Locks.pure hp
      | some item => exact Matched.ok rfl (hp.setBody slot _)
  | _ => exact Locks.fault

/-! ## Registers and pins -/

theorem setPinned_blind (v : Value) (pinned : Bool) :
    Blind (do set (← (← get).setPinned v pinned)) := by
  intro h k hp
  refine Locks.get ?_
  unfold setPinned
  cases v.slot? with
  | none => exact Locks.set hp
  | some slot =>
      have hblock : k.block slot = h.block slot := hp.part_eq (·.block slot) fun _ _ _ => rfl
      dsimp only
      rw [hblock]
      cases h.block slot with
      | error f => exact Matched.fault (.inl rfl)
      | ok block =>
          refine Locks.set ?_
          exact hp.map (·.modifyBlock slot fun b => { b with header := { b.header with pinned } })
            (fun _ _ _ => rfl) rfl (hp.calm.modifyBlock slot fun _ => rfl)

/-- A collection that was asked for is blind once its report is dropped. -/
theorem collect_blind (roots : List Value) : Blind (do let _ ← collect roots) :=
  fun _ _ hp => (collect_matched hp roots).bind fun _ _ _ _ _ hp' => Locks.pure hp'

end Heap

namespace Operation

/-- An operation without a result is as blind as its step. -/
theorem effect_blind {step : HeapM Unit} (hstep : Blind step) : Blind (effect step) :=
  hstep.bind fun _ => Blind.pure none

/-- No operation is aware of the size of the mark stack. -/
theorem perform_blind [Digest] (roots : List Value) (op : Operation) :
    Blind (op.perform roots) := by
  cases op with
  | newInt n => exact (Heap.newInt_blind roots n).map
  | newSequence kind len => exact (Heap.newSequence_blind roots kind len).map
  | newBuffer capacity => exact (Heap.newBuffer_blind roots capacity).map
  | newSysObj size => exact (Heap.newSysObj_blind roots size).map
  | newDict hint => exact (Heap.newDict_blind roots hint).map
  | newSet kind hint => exact (Heap.newSet_blind roots kind hint).map
  | newFrozenSet items => exact (Heap.newFrozenSet_blind roots items).map
  | newRange range => exact (Heap.newRange_blind roots range).map
  | newFrame parent function module locals stack =>
      exact (Heap.newFrame_blind roots parent function module locals stack).map
  | newInstance classRef => exact (Heap.newInstance_blind roots classRef).map
  | newModule name => exact (Heap.newModule_blind roots name).map
  | seqSet seq index item => exact effect_blind (Heap.seqSet_blind seq index item)
  | seqAppend seq item => exact effect_blind (Heap.seqExtend_blind roots seq [item])
  | seqExtend seq items => exact effect_blind (Heap.seqExtend_blind roots seq items)
  | seqPop seq => exact (Heap.seqPop_blind seq).map
  | seqReserve seq capacity => exact effect_blind (Heap.seqReserve_blind roots seq capacity)
  | seqSetLen seq len => exact effect_blind (Heap.seqSetLen_blind seq len)
  | updateBytes seq change => exact effect_blind (Heap.updateBytes_blind seq change)
  | dictPut dict key value => exact effect_blind (Heap.dictPut_blind roots dict key value)
  | dictDel dict key => exact (Heap.dictDel_blind dict key).map
  | setPut s key => exact effect_blind (Heap.setPut_blind roots s key)
  | setDel s key => exact effect_blind (Heap.setDel_blind s key)
  | setAttr object name value => exact effect_blind (Heap.setAttr_blind roots object name value)
  | frameSetLocal frame index value => exact effect_blind (Heap.changeFrame_blind frame _)
  | framePush frame value => exact effect_blind (Heap.changeFrame_blind frame _)
  | framePop frame => exact (Heap.changeFrame_blind frame _).map
  | threadEnter thread frame => exact effect_blind (Heap.threadEnter_blind thread frame)
  | threadReturn thread result => exact effect_blind (Heap.threadReturn_blind thread result)
  | iterNext iterator => exact Heap.iterNext_blind roots iterator
  | protect v =>
      exact effect_blind fun h k hp => Matched.ok rfl (hp.map (·.protect v) (fun _ _ _ => rfl) rfl
        (hp.calm.congr rfl rfl rfl))
  | releaseRegisters mark =>
      exact effect_blind fun h k hp => Matched.ok rfl (hp.releaseRegisters mark)
  | pin v => exact effect_blind (Heap.setPinned_blind v true)
  | unpin v => exact effect_blind (Heap.setPinned_blind v false)
  | collect => exact effect_blind (Heap.collect_blind roots)
  -- the other constructors allocate a block for a payload and do nothing else
  | _ => exact (Heap.allocate_blind roots _ _).map

end Operation

end ObjectHeap
