import ObjectHeap.Operation
import ObjectHeap.Proofs.Attributes
import ObjectHeap.Proofs.Iteration

/-! # Operations and queries

Every public operation on a sound heap, called with values that can be used, succeeds and leaves
a sound heap, or is refused and leaves it sound as well. Every query answers with values that can
be used. No fault occurs that the caller is not to blame for.
-/

namespace ObjectHeap

open Heap

namespace Operation

/-- The values that an operation is called with, besides the roots. -/
def arguments : Operation → List Value
  | .newTuple items | .newList items => items.toList
  | .newFrozenSet items => items
  | .newSlice s => [s.start, s.stop, s.step]
  | .newIterator iterable => [iterable]
  | .newFunction f => [f.name, f.module, f.defaults, f.closure]
  | .newMethod m => [m.function, m.receiver]
  | .newClass c => [c.name, c.bases, c.methods]
  | .newInstanceWith i => [i.classRef, i.attributes]
  | .newModuleWith m => [m.name, m.globals]
  | .newFrame parent function module _ _ => [parent, function, module]
  | .newThread _ _ frame => [frame]
  | .newInstance classRef => [classRef]
  | .newModule name => [name]
  | .seqSet seq _ item => [seq, item]
  | .seqAppend seq item => [seq, item]
  | .seqExtend seq items => seq :: items
  | .seqPop seq | .seqReserve seq _ | .seqSetLen seq _ | .updateBytes seq _ => [seq]
  | .dictPut dict key value => [dict, key, value]
  | .dictDel dict key => [dict, key]
  | .setPut s key | .setDel s key => [s, key]
  | .setAttr object name value => [object, name, value]
  | .frameSetLocal frame _ value => [frame, value]
  | .framePush frame value => [frame, value]
  | .framePop frame => [frame]
  | .threadEnter thread frame => [thread, frame]
  | .threadReturn thread result => [thread, result]
  | .iterNext iterator => [iterator]
  | .protect v | .pin v | .unpin v => [v]
  | .newInt _ | .newInteger _ | .newFloat _ | .newSequence _ _ | .newString _ | .newBytes _
  | .newByteArray _ | .newShorts _ | .newShortArray _ | .newBuffer _ | .newSysObj _ | .newDict _
  | .newSet _ _ | .newRange _ | .releaseRegisters _ | .collect => []

/-- What an operation changes when it succeeds with a result. -/
def target (h : Heap) (result : Option Value) : Operation → Target
  | .seqSet seq _ _ | .seqAppend seq _ | .seqExtend seq _ | .seqPop seq | .seqReserve seq _
  | .seqSetLen seq _ | .updateBytes seq _ => .sequence seq
  | .frameSetLocal frame _ _ | .framePush frame _ | .framePop frame => .block frame
  | .threadEnter thread _ | .threadReturn thread _ => .block thread
  | .iterNext iterator => .block iterator
  | .pin v | .unpin v => .block v
  | .dictPut dict _ _ | .dictDel dict _ => .table dict
  | .setPut s _ | .setDel s _ => .table s
  | .setAttr object _ _ => h.attributeTarget object
  | .newFrozenSet _ => result.elim .nothing .filled
  | .protect _ | .releaseRegisters _ => .registers
  | .collect => .nothing
  | _ => .fresh

/-- Whether a refusal of the operation may leave a dict behind. -/
def leavesDict : Operation → Bool
  | .newInstance _ | .newModule _ => true
  | _ => false

variable [Digest] {admits : Value → Prop} {h : Heap} {roots starts : List Value}

theorem answers {step : HeapM Value} {target : Target}
    (hends : Ends admits step h starts target fun v => [v]) (leavesDict : Bool) :
    Yields admits (some <$> step) h (fun result => h.Completed admits starts target result.toList)
      (h.Retreats admits starts leavesDict) :=
  Yields.map (Yields.mono hends (fun _ _ hdone => hdone) fun _ _ hd => hd.retreats leavesDict)

theorem effects {step : HeapM Unit} {target : Target}
    (hends : Ends admits step h starts target fun _ => []) (leavesDict : Bool) :
    Yields admits (effect step) h (fun result => h.Completed admits starts target result.toList)
      (h.Retreats admits starts leavesDict) :=
  Yields.bind (Yields.mono hends (fun _ _ hdone => hdone) fun _ _ hd => hd.retreats leavesDict)
    fun _ _ hdone => Yields.pure hdone

/-- What an operation is about. -/
inductive Group where
  /-- A new block that refers to no other. -/
  | data
  /-- A new block that is made of values. -/
  | composite
  | sequence
  | table
  /-- Frames, threads and iterators. -/
  | execution
  /-- Registers, pins and collections. -/
  | upkeep

def group : Operation → Group
  | .newInt _ | .newInteger _ | .newFloat _ | .newSequence _ _ | .newString _ | .newBytes _
  | .newByteArray _ | .newShorts _ | .newShortArray _ | .newBuffer _ | .newSysObj _ | .newDict _
  | .newSet _ _ | .newRange _ => .data
  | .newTuple _ | .newList _ | .newFrozenSet _ | .newSlice _ | .newIterator _ | .newFunction _
  | .newMethod _ | .newClass _ | .newInstanceWith _ | .newModuleWith _ | .newFrame _ _ _ _ _
  | .newThread _ _ _ | .newInstance _ | .newModule _ => .composite
  | .seqSet _ _ _ | .seqAppend _ _ | .seqExtend _ _ | .seqPop _ | .seqReserve _ _ | .seqSetLen _ _
  | .updateBytes _ _ => .sequence
  | .dictPut _ _ _ | .dictDel _ _ | .setPut _ _ | .setDel _ _ | .setAttr _ _ _ => .table
  | .frameSetLocal _ _ _ | .framePush _ _ | .framePop _ | .threadEnter _ _ | .threadReturn _ _
  | .iterNext _ => .execution
  | .protect _ | .releaseRegisters _ | .pin _ | .unpin _ | .collect => .upkeep

/-- Whether an operation ends well, or is refused and leaves what is held. -/
def EndsWell (op : Operation) (admits : Value → Prop) (h : Heap) (roots : List Value) : Prop :=
  Yields admits (op.perform roots) h
    (fun result =>
      h.Completed admits (roots ++ op.arguments) (op.target h result) result.toList)
    (h.Retreats admits (roots ++ op.arguments) op.leavesDict)

section Groups

variable (hs : h.Sound admits 0) (hroots : ∀ v ∈ roots, h.Usable admits v) {op : Operation}
  (hargs : ∀ v ∈ op.arguments, h.Usable admits v)
include hs hroots

/-- Blocks that refer to no other can be made. -/
theorem endsWell_data (hgroup : op.group = .data) : op.EndsWell admits h roots := by
  cases op with
  | newInt n => exact answers (newInt_ends hs hroots n) _
  | newInteger n => exact answers (newInteger_ends hs hroots n) _
  | newFloat x => exact answers (newFloat_ends hs hroots x) _
  | newSequence kind len => exact answers (newSequence_ends hs hroots kind len) _
  | newString text => exact answers (newBytesOf_ends hs hroots rfl _) _
  | newBytes data => exact answers (newBytesOf_ends hs hroots rfl data) _
  | newByteArray data => exact answers (newBytesOf_ends hs hroots rfl data) _
  | newShorts data => exact answers (newShorts_ends hs hroots data) _
  | newShortArray data => exact answers (newShortArray_ends hs hroots data) _
  | newBuffer capacity => exact answers (newBuffer_ends hs hroots capacity) _
  | newSysObj size => exact answers (newSysObj_ends hs hroots size) _
  | newDict hint => exact answers (newDict_ends hs hroots hint) _
  | newSet kind hint => exact answers (newSet_ends hs hroots kind hint) _
  | newRange range => exact answers (newRange_ends hs hroots range) _
  | _ => cases hgroup

include hargs

/-- Blocks can be made of values. -/
theorem endsWell_composite (hgroup : op.group = .composite) : op.EndsWell admits h roots := by
  cases op with
  | newTuple items => exact answers (newObjects_ends hs hroots rfl hargs) _
  | newList items => exact answers (newObjects_ends hs hroots rfl hargs) _
  | newFrozenSet items =>
      exact Yields.map (Yields.mono (newFrozenSet_yields hs hroots hargs)
        (fun _ _ hmade => hmade.completed) fun _ _ hd => hd.retreats _)
  | newSlice s =>
      exact answers (newFields_ends hs hroots (.slice s) rfl trivial trivial hargs) _
  | newIterator iterable =>
      exact answers (newFields_ends hs hroots (.iterator ⟨iterable, 0⟩) rfl trivial trivial hargs) _
  | newFunction f =>
      exact answers (newFields_ends hs hroots (.function f) rfl trivial trivial hargs) _
  | newMethod m =>
      exact answers (newFields_ends hs hroots (.method m) rfl trivial trivial hargs) _
  | newClass c =>
      exact answers (newFields_ends hs hroots (.classObj c) rfl trivial trivial hargs) _
  | newInstanceWith i =>
      exact answers (newFields_ends hs hroots (.instanceObj i) rfl trivial trivial hargs) _
  | newModuleWith m =>
      exact answers (newFields_ends hs hroots (.moduleObj m) rfl trivial trivial hargs) _
  | newFrame parent function module locals stack =>
      exact answers (newFrame_ends hs hroots locals stack hargs) _
  | newThread id priority frame =>
      refine answers (newRecord_ends hs hroots (.thread ⟨id, priority, frame, Value.nil⟩) rfl
        trivial trivial (fun v hv => ?_) (fun v hv => ?_) hargs) _
      · simpa [Body.edges, arguments] using hv
      · exact List.mem_cons.mpr (Or.inl (List.mem_singleton.mp hv))
  | newInstance classRef =>
      exact Yields.map (Yields.mono (newInstance_yields hs hroots
        (hargs classRef (by simp [arguments]))) (fun _ _ hmade => hmade.1) fun _ _ hr => hr)
  | newModule name =>
      exact Yields.map (Yields.mono (newModule_yields hs hroots
        (hargs name (by simp [arguments]))) (fun _ _ hmade => hmade.1) fun _ _ hr => hr)
  | _ => cases hgroup

/-- Sequences can be edited. -/
theorem endsWell_sequence (hgroup : op.group = .sequence) : op.EndsWell admits h roots := by
  cases op with
  | seqSet seq index item =>
      exact effects (ends_of_and (seqSet_revises hs (hargs seq (by simp [arguments])) index
        (hargs item (by simp [arguments])))) _
  | seqAppend seq item =>
      exact effects (ends_of_and (seqExtend_revises hs hroots (hargs seq (by simp [arguments]))
        fun v hv => hargs v (List.mem_cons_of_mem _ hv))) _
  | seqExtend seq items =>
      exact effects (ends_of_and (seqExtend_revises hs hroots (hargs seq (by simp [arguments]))
        fun v hv => hargs v (List.mem_cons_of_mem _ hv))) _
  | seqPop seq =>
      exact answers (ends_of_and (seqPop_revises hs (hargs seq (by simp [arguments])))) _
  | seqReserve seq capacity =>
      exact effects (ends_of_and (seqReserve_revises hs hroots (hargs seq (by simp [arguments]))
        capacity)) _
  | seqSetLen seq len =>
      exact effects (ends_of_and (seqSetLen_revises hs (hargs seq (by simp [arguments])) len)) _
  | updateBytes seq change =>
      exact effects (ends_of_and (updateBytes_revises hs (hargs seq (by simp [arguments]))
        change)) _
  | _ => cases hgroup

/-- Keys and names can be bound and removed. -/
theorem endsWell_table (hgroup : op.group = .table) : op.EndsWell admits h roots := by
  cases op with
  | dictPut dict key value =>
      exact effects (ends_of_and (dictPut_stores hs hroots (hargs dict (by simp [arguments]))
        (hargs key (by simp [arguments])) (hargs value (by simp [arguments])))) _
  | dictDel dict key =>
      exact answers (ends_of_and (dictDel_removes hs (hargs dict (by simp [arguments]))
        (hargs key (by simp [arguments])))) _
  | setPut s key =>
      exact effects (ends_of_and (setPut_stores hs hroots (hargs s (by simp [arguments]))
        (hargs key (by simp [arguments])))) _
  | setDel s key =>
      exact effects (ends_of_and (setDel_removes hs (hargs s (by simp [arguments]))
        (hargs key (by simp [arguments])))) _
  | setAttr object name value =>
      exact effects (ends_of_and (setAttr_stores hs hroots (hargs object (by simp [arguments]))
        (hargs name (by simp [arguments])) (hargs value (by simp [arguments])))) _
  | _ => cases hgroup

/-- Frames, threads and iterators can be moved on. -/
theorem endsWell_execution (hgroup : op.group = .execution) : op.EndsWell admits h roots := by
  cases op with
  | frameSetLocal frame index value =>
      exact effects (frameSetLocal_ends hs (hargs frame (by simp [arguments])) index
        (hargs value (by simp [arguments]))) _
  | framePush frame value =>
      exact effects (framePush_ends hs (hargs frame (by simp [arguments]))
        (hargs value (by simp [arguments]))) _
  | framePop frame => exact answers (framePop_ends hs (hargs frame (by simp [arguments]))) _
  | threadEnter thread frame =>
      exact effects (threadEnter_ends hs (hargs thread (by simp [arguments]))
        (hargs frame (by simp [arguments]))) _
  | threadReturn thread result =>
      exact effects (threadReturn_ends hs (hargs thread (by simp [arguments]))
        (hargs result (by simp [arguments]))) _
  | iterNext iterator =>
      exact Yields.mono (iterNext_yields hs hroots (hargs iterator (by simp [arguments])))
        (fun _ _ hdone => hdone.1) fun _ _ hd => hd.retreats false
  | _ => cases hgroup

/-- Registers and pins can be set, and garbage can be collected. -/
theorem endsWell_upkeep (hgroup : op.group = .upkeep) : op.EndsWell admits h roots := by
  cases op with
  | protect v => exact effects (protect_ends hs (hargs v (by simp [arguments]))) _
  | releaseRegisters mark => exact effects (releaseRegisters_ends hs mark) _
  | pin v => exact effects (setPinned_ends hs (hargs v (by simp [arguments])) true) _
  | unpin v => exact effects (setPinned_ends hs (hargs v (by simp [arguments])) false) _
  | collect => exact effects (collect_ends hs hroots) _
  | _ => cases hgroup

end Groups

/-- An operation on a sound heap ends well, or is refused and leaves what is held. -/
theorem perform_yields (hs : h.Sound admits 0) (op : Operation)
    (hpassed : ∀ v ∈ roots ++ op.arguments, h.Usable admits v) :
    Yields admits (op.perform roots) h
      (fun result =>
        h.Completed admits (roots ++ op.arguments) (op.target h result) result.toList)
      (h.Retreats admits (roots ++ op.arguments) op.leavesDict) := by
  obtain ⟨hroots, hargs⟩ := List.forall_mem_append.mp hpassed
  cases hgroup : op.group with
  | data => exact endsWell_data hs hroots hgroup
  | composite => exact endsWell_composite hs hroots hargs hgroup
  | sequence => exact endsWell_sequence hs hroots hargs hgroup
  | table => exact endsWell_table hs hroots hargs hgroup
  | execution => exact endsWell_execution hs hroots hargs hgroup
  | upkeep => exact endsWell_upkeep hs hroots hargs hgroup

end Operation

/-- A public read with its arguments. -/
inductive Query where
  | seqGet (seq : Value) (index : Nat)
  | objects (seq : Value)
  | dictGet (dict key : Value)
  | setGet (s key : Value)
  | hashEntries (table : Value)
  | getAttr (object name : Value)
  | frameLocal (frame : Value) (index : Nat)
  | frameStack (frame : Value)

namespace Query

/-- The values that a read is called with. -/
def arguments : Query → List Value
  | .seqGet seq _ | .objects seq => [seq]
  | .dictGet dict key => [dict, key]
  | .setGet s key => [s, key]
  | .hashEntries table => [table]
  | .getAttr object name => [object, name]
  | .frameLocal frame _ | .frameStack frame => [frame]

/-- The values that a read answers with. -/
def answer [Digest] (h : Heap) : Query → Except Stop (List Value)
  | .seqGet seq index => ([·]) <$> h.seqGet seq index
  | .objects seq => Array.toList <$> h.objects seq
  | .dictGet dict key => Option.toList <$> h.dictGet dict key
  | .setGet s key => Option.toList <$> h.setGet s key
  | .hashEntries table => (·.flatMap fun (key, value) => [key, value]) <$> h.hashEntries table
  | .getAttr object name => Option.toList <$> h.getAttr object name
  | .frameLocal frame index => ([·]) <$> h.frameLocal frame index
  | .frameStack frame => Array.toList <$> h.frameStack frame

variable [Digest] {admits : Value → Prop} {h : Heap}

/-- Only a lookup along classes may be endless. -/
theorem answer_gives (hs : h.Sound admits 0) (query : Query)
    (hattr : ∀ object name, query ≠ .getAttr object name)
    (hargs : ∀ v ∈ query.arguments, h.Usable admits v) :
    Gives admits (query.answer h) fun values => ∀ v ∈ values, h.Usable admits v := by
  have hc := hs.coherent
  cases query with
  | seqGet seq index =>
      refine Gives.map (Gives.mono (seqGet_gives hc (hargs seq (by simp [arguments])) index) ?_)
      simp
  | objects seq => exact Gives.map (objects_gives hs (hargs seq (by simp [arguments])))
  | dictGet dict key =>
      refine Gives.map (Gives.mono (dictGet_gives hc (hargs dict (by simp [arguments]))
        (hargs key (by simp [arguments]))) ?_)
      simp
  | setGet s key =>
      refine Gives.map (Gives.mono (setGet_gives hc (hargs s (by simp [arguments]))
        (hargs key (by simp [arguments]))) ?_)
      simp
  | hashEntries table =>
      refine Gives.map (Gives.mono (hashEntries_gives hc (hargs table (by simp [arguments])))
        fun entries hentries v hv => ?_)
      obtain ⟨entry, hmem, hv⟩ := List.mem_flatMap.mp hv
      have husable := hentries entry hmem
      rcases List.mem_pair.mp hv with rfl | rfl
      · exact husable.1
      · exact husable.2
  | getAttr object name => exact absurd rfl (hattr object name)
  | frameLocal frame index =>
      refine Gives.map
        (Gives.mono (frameLocal_gives hs (hargs frame (by simp [arguments])) index) ?_)
      simp
  | frameStack frame => exact Gives.map (frameStack_gives hs (hargs frame (by simp [arguments])))

/-- A read of a sound heap answers with values that can be used. -/
theorem answer_finds (hs : h.Sound admits 0) (query : Query)
    (hargs : ∀ v ∈ query.arguments, h.Usable admits v) :
    Finds admits (query.answer h) fun values => ∀ v ∈ values, h.Usable admits v := by
  by_cases hattr : ∀ object name, query ≠ .getAttr object name
  · exact Finds.of_gives (answer_gives hs query hattr hargs)
  · push Not at hattr
    obtain ⟨object, name, rfl⟩ := hattr
    have hfinds := getAttr_finds hs (hargs object (by simp [arguments]))
      (hargs name (by simp [arguments]))
    exact Finds.map (Finds.mono hfinds (by simp))

end Query

end ObjectHeap
