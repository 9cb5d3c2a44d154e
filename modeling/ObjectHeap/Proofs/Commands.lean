import ObjectHeap.Arguments
import ObjectHeap.Proofs.Lockstep
import ObjectHeap.Proofs.Runs

/-! # Scripts on two heaps

A *command* is anything that a caller may do with a heap. Besides the operations these are
payloads made and changed by hand, and reads. A script of commands is run on two heaps that were
made with mark stacks of different sizes: each command comes to the same on both, and leaves them
the same. Only the number of rescans tells them apart, and, once marking has met a reference to
no block, which such reference it met first.
-/

namespace ObjectHeap

/-- A read that answers with something else than values of the heap. -/
inductive Reading where
  | len (v : Value)
  | capacity (v : Value)
  | kindOf (v : Value)
  | contains (v : Value)
  | bytes (v : Value)
  | shorts (v : Value)
  | text (v : Value)
  | number (v : Value)
  | intValue (v : Value)
  | floatValue (v : Value)
  | isFloat (v : Value)
  | hashOf (key : Value)
  | valuesEqual (a b : Value)
  | block (slot : Nat)
  | record (v : Value) (kind : Kind)
  | checkSize (size : Option Nat)
  | hashCapacity (hint : Nat) (keepsValues : Bool)
  | arguments (format : String) (args : List Value) (defaults : List Argument)
  | freeBytes
  | usedBytes
  | largestFree
  | freeExtents
  | liveObjects
  | collections
  | registerMark
  | phase
  | blocks
  | census

/-- What a command answers with. -/
inductive Answer where
  | values (values : List Value)
  | count (n : Nat)
  | kind (kind : Kind)
  | truth (b : Bool)
  | bytes (data : Array UInt8)
  | shorts (data : Array UInt16)
  | text (text : String)
  | number (n : Option Number)
  | int (n : Int64)
  | float (x : Binary64)
  | hash (hash : UInt64)
  | blocks (blocks : List (Nat × Block))
  | body (slot : Nat) (body : Body)
  | arguments (converted : List Argument)
  | phase (phase : Phase)
  | census (counts : List (String × Nat))
  | report (last : Option CycleReport)

/-- An answer without the number of rescans. -/
def Answer.trimmed : Answer → Answer
  | .report last => .report (last.map CycleReport.trimmed)
  | answer => answer

def Reading.answer [Digest] (h : Heap) : Reading → Except Stop Answer
  | .len v => .count <$> h.len v
  | .capacity v => .count <$> h.capacity v
  | .kindOf v => return .kind (← h.kindOf v)
  | .contains v => return .truth (h.contains v)
  | .bytes v => .bytes <$> h.bytes v
  | .shorts v => .shorts <$> h.shorts v
  | .text v => .text <$> h.text v
  | .number v => return .number (← h.number? v)
  | .intValue v => .int <$> h.intValue v
  | .floatValue v => .float <$> h.floatValue v
  | .isFloat v => return .truth (← h.isFloat v)
  | .hashOf key => .hash <$> h.hashOf key
  | .valuesEqual a b => return .truth (← h.valuesEqual a b)
  | .block slot => return .blocks [(slot, ← h.block slot)]
  | .record v kind => do
    let (slot, body) ← h.record v kind
    return .body slot body
  | .checkSize size => .count <$> h.checkSize size
  | .hashCapacity hint keepsValues => .count <$> h.hashCapacity hint keepsValues
  | .arguments format args defaults => .arguments <$> h.parseArguments format args defaults
  | .freeBytes => return .count h.freeBytes
  | .usedBytes => return .count h.usedBytes
  | .largestFree => return .count h.arena.largest
  | .freeExtents => return .count h.arena.extents.length
  | .liveObjects => return .count h.liveObjects
  | .collections => return .count h.collections
  | .registerMark => return .count h.registerMark
  | .phase => return .phase h.phase
  | .blocks => return .blocks h.blocks
  | .census => return .census h.census

/-- Something that a caller may do with a heap. -/
inductive Command where
  | operate (op : Operation)
  | collect
  | allocate (kind : Kind) (body : Body)
  /-- Changes a payload in place, in whatever way the caller likes. -/
  | changeBody (slot : Nat) (change : Body → Body)
  | assignField (v : Value) (field : Field) (value : Value)
  | ask (query : Query)
  | read (reading : Reading)
  | lastReport

def Command.run [Digest] (roots : List Value) : Command → HeapM Answer
  | .operate op => do return .values (← op.perform roots).toList
  | .collect => do return .report (some (← Heap.collect roots))
  | .allocate kind body => do return .values [← Heap.allocate roots kind body]
  | .changeBody slot change => do
    let h ← get
    let body ← h.body slot
    set (h.setBody slot (change body))
    return .values []
  | .assignField v field value => do
    Heap.assignField v field value
    return .values []
  | .ask query => do return .values (← query.answer (← get))
  | .read reading => do reading.answer (← get)
  | .lastReport => do return .report (← get).lastCycle

/-- What each command of a script comes to. A refusal does not end a script, a fault does. -/
def outcomes [Digest] :
    List (List Value × Command) → Heap → List (EStateM.Result Stop Heap Answer)
  | [], _ => []
  | (roots, command) :: script, h =>
    match command.run roots h with
    | .ok answer h' => .ok answer h' :: outcomes script h'
    | .error (.refused reason) h' => .error (.refused reason) h' :: outcomes script h'
    | .error (.fault fault) h' => [.error (.fault fault) h']

namespace Heap

theorem convertAll_unaware (position : Nat) (specs : List Char) (args : List Value)
    (defaults : List Argument) : Unaware (·.convertAll position specs args defaults) := by
  intro h n last
  induction specs generalizing position args defaults with
  | nil => rfl
  | cons spec specs ih =>
      unfold convertAll
      simp only [ih]
      rfl

end Heap

section Commands

variable [Digest]

theorem Reading.answer_unaware (reading : Reading) : Heap.Unaware reading.answer := by
  intro h n last
  cases reading with
  | hashOf key => exact congrArg (Answer.hash <$> ·) (Heap.hashOf_unaware key h n last)
  | valuesEqual a b => simp only [answer, Heap.valuesEqual_unaware a b h n last]
  | arguments format args defaults =>
      simp only [answer, Heap.parseArguments, Heap.convertAll_unaware _ _ _ _ h n last]
  | _ => rfl

theorem Query.answer_unaware (query : Query) : Heap.Unaware query.answer := by
  intro h n last
  cases query with
  | dictGet dict key =>
      exact congrArg (Option.toList <$> ·) (Heap.dictGet_unaware dict key h n last)
  | setGet s key => exact congrArg (Option.toList <$> ·) (Heap.setGet_unaware s key h n last)
  | getAttr object name =>
      exact congrArg (Option.toList <$> ·) (Heap.getAttr_unaware object name h n last)
  | _ => rfl

/-- Answers that differ in the number of rescans at most. -/
def Answer.Agrees (a b : Answer) : Prop := b.trimmed = a.trimmed

/-- A command comes to the same on paired heaps. -/
theorem Command.run_matched {h k : Heap} (hp : h.Paired k) (roots : List Value)
    (command : Command) :
    Matched Heap.Paired Answer.Agrees (command.run roots h) (command.run roots k) := by
  have hagrees {x : HeapM Answer} (hx : Blind x) :
      Matched Heap.Paired Answer.Agrees (x h) (x k) :=
    (hx h k hp).mono (fun _ _ hp' => hp') fun _ _ heq => congrArg Answer.trimmed heq.symm
  cases command with
  | operate op => exact hagrees ((op.perform_blind roots).bind fun _ => Blind.pure _)
  | collect =>
      apply (Heap.collect_matched hp roots).bind
      intro report report' h' k' htrim hp'
      exact .ok (congrArg (fun r => Answer.report (some r)) htrim) hp'
  | allocate kind body =>
      exact hagrees ((Heap.allocate_blind roots kind body).bind fun _ => Blind.pure _)
  | changeBody slot change =>
      apply hagrees
      intro h k hp
      refine Locks.get (Locks.look hp (·.body slot) (fun _ _ _ => rfl) fun body => ?_)
      exact Locks.set_bind (Locks.pure (hp.setBody slot (change body)))
  | assignField v field value =>
      exact hagrees ((Heap.assignField_blind v field value).bind fun _ => Blind.pure _)
  | ask query =>
      exact hagrees (Blind.read query.answer query.answer_unaware fun _ => Blind.pure _)
  | read reading =>
      have hread := Blind.read reading.answer reading.answer_unaware Blind.pure
      simp only [bind_pure] at hread
      exact hagrees hread
  | lastReport =>
      obtain ⟨n, last, rfl, htrim⟩ := hp.retuned
      exact .ok (congrArg Answer.report htrim) hp

/-- A script comes to the same on paired heaps, command by command. -/
theorem outcomes_matched {h k : Heap} (hp : h.Paired k) (script : List (List Value × Command)) :
    List.Forall₂ (Matched Heap.Paired Answer.Agrees) (outcomes script h) (outcomes script k) := by
  induction script generalizing h k with
  | nil => exact .nil
  | cons step script ih =>
      obtain ⟨roots, command⟩ := step
      have hrun := command.run_matched hp roots
      unfold outcomes
      generalize command.run roots h = r at hrun
      generalize command.run roots k = r' at hrun
      cases hrun with
      | ok hab hp' => exact .cons (.ok hab hp') (ih hp')
      | refused hp' => exact .cons (.refused hp') (ih hp')
      | fault hf => exact .cons (.fault hf) .nil

end Commands

namespace Heap

/-- Two heaps that differ in the size of their mark stacks, and in the rescans of their last
collection, at most. -/
structure Agrees (h k : Heap) : Prop where
  slots_eq : k.slots = h.slots
  freeSlots_eq : k.freeSlots = h.freeSlots
  arena_eq : k.arena = h.arena
  registers_eq : k.registers = h.registers
  markStack_eq : k.markStack = h.markStack
  phase_eq : k.phase = h.phase
  liveObjects_eq : k.liveObjects = h.liveObjects
  collections_eq : k.collections = h.collections
  lastCycle_eq : k.lastCycle.map CycleReport.trimmed = h.lastCycle.map CycleReport.trimmed
  settings_eq : k.settings = { h.settings with markStackSize := k.settings.markStackSize }

theorem Paired.agrees {h k : Heap} (hp : Paired h k) : h.Agrees k := by
  obtain ⟨n, last, rfl, htrim⟩ := hp.retuned
  exact ⟨rfl, rfl, rfl, rfl, rfl, rfl, rfl, rfl, htrim, rfl⟩

/-- New heaps whose settings differ in the size of the mark stack are paired. -/
theorem paired_of_new {s : Settings} {n : Nat} {h k : Heap} (hnew : Heap.new s = .ok h)
    (hnew' : Heap.new { s with markStackSize := n } = .ok k) : h.Paired k := by
  obtain ⟨_, rfl⟩ := flaw?_of_new hnew
  obtain ⟨_, rfl⟩ := flaw?_of_new hnew'
  refine ⟨⟨?_, rfl, rfl⟩, n, none, rfl, rfl⟩
  intro slot block hblock
  simp [block?] at hblock

end Heap

/-- The size of the mark stack cannot be observed. On two heaps whose settings differ in nothing
else, each command of a script returns the same, or is refused for the same reason, and leaves
the same blocks, free slots, free extents, registers and counters; reports differ in rescans at
most. A fault ends both runs at the same command. It is the same fault, unless marking met
references to no block: the stack decides which of these is met first. -/
theorem outcomes_markStackSize [Digest] {s : Settings} {n : Nat} {h k : Heap}
    (hnew : Heap.new s = .ok h) (hnew' : Heap.new { s with markStackSize := n } = .ok k)
    (script : List (List Value × Command)) :
    List.Forall₂ (Matched Heap.Agrees Answer.Agrees) (outcomes script h) (outcomes script k) :=
  (outcomes_matched (Heap.paired_of_new hnew hnew') script).imp fun _ _ hr =>
    hr.mono (fun _ _ hp => hp.agrees) fun _ _ hab => hab

/-- The rescans of each collection that was asked for. -/
def reportedRescans (results : List (EStateM.Result Stop Heap Answer)) : List Nat :=
  results.filterMap fun
    | .ok (.report (some report)) _ => some report.rescans
    | _ => none

/-- A tuple of two blocks, and a collection that starts from it. -/
def fanOut (first second : Operation) : List (List Value × Command) :=
  [([], .operate first), ([], .operate second),
    ([], .operate (.newTuple #[Value.ofSlot 0, Value.ofSlot 1])), ([Value.ofSlot 2], .collect)]

/-- A stack of one entry has no room for the second block, and one of two has. -/
theorem outcomes_markStackSize_fanOut : ∃ h k, Heap.new Heap.crampedSettings = .ok h ∧
    Heap.new { Heap.crampedSettings with markStackSize := 2 } = .ok k ∧
    List.Forall₂ (Matched Heap.Agrees Answer.Agrees)
      (outcomes (fanOut (.newInteger 1) (.newInteger 2)) h)
      (outcomes (fanOut (.newInteger 1) (.newInteger 2)) k) ∧
    reportedRescans (outcomes (fanOut (.newInteger 1) (.newInteger 2)) h) = [1] ∧
    reportedRescans (outcomes (fanOut (.newInteger 1) (.newInteger 2)) k) = [0] := by
  obtain ⟨h, hnew⟩ := Heap.new_crampedSettings
  obtain ⟨k, hnew'⟩ : ∃ k, Heap.new { Heap.crampedSettings with markStackSize := 2 } = .ok k := by
    have hflaw : ({ Heap.crampedSettings with markStackSize := 2 } : Settings).flaw? = none := by
      decide +kernel
    rw [Heap.new, hflaw]
    exact ⟨_, rfl⟩
  refine ⟨h, k, hnew, hnew', outcomes_markStackSize hnew hnew' _, ?_, ?_⟩
  · obtain ⟨_, rfl⟩ := Heap.flaw?_of_new hnew
    cbv
  · obtain ⟨_, rfl⟩ := Heap.flaw?_of_new hnew'
    cbv

/-- The slot at which marking a new heap after a script finds no block, if it does. -/
def missing? (s : Settings) (script : List (List Value × Command)) : Option Nat :=
  (Heap.new s).toOption.bind fun h => (outcomes script h).findSome? fun
    | .error (.fault (.danglingWhileMarking slot)) _ => some slot
    | _ => none

-- the two blocks refer to slots that were never used, and are scanned in another order
example :
    let script := fanOut (.newTuple #[Value.ofSlot 50]) (.newTuple #[Value.ofSlot 60])
    missing? Heap.crampedSettings script = some 50 ∧
      missing? { Heap.crampedSettings with markStackSize := 2 } script = some 60 := by
  cbv

end ObjectHeap
