import ObjectHeap.Mapping
import ObjectHeap.Record
import ObjectHeap.Sequence

/-! # Attributes

Names bound on instances, classes and modules. An instance is searched before its class, and
a class before its bases, which are searched depth first from left to right. A chain of
bases that is longer than there are blocks comes back to a class it has passed, and faults.
-/

namespace ObjectHeap.Heap

variable [Digest]

/-- An instance of a class, without attributes. -/
def newInstance (roots : List Value) (classRef : Value) : HeapM Value := do
  let _ ← (← get).classBody classRef
  protecting [classRef] do
    let attributes ← newDict roots 0
    newInstanceWith roots { classRef, attributes }

/-- A module with a name, without globals. -/
def newModule (roots : List Value) (name : Value) : HeapM Value :=
  protecting [name] do
    let globals ← newDict roots 0
    newModuleWith roots { name, globals }

/-- The first result of a search over values from left to right. -/
def firstFound (search : Value → Except Stop (Option Value)) :
    List Value → Except Stop (Option Value)
  | [] => return none
  | v :: rest => do
    match ← search v with
    | some found => return some found
    | none => firstFound search rest

/-- Looks a name up on a class, for chains of bases below a given length. -/
def classAttrWithin (h : Heap) (name : Value) :
    (length : Nat) → Value → Except Stop (Option Value)
  | 0, _ => throw (.fault .endless)
  | length + 1, v => do
    let body ← h.classBody v
    match ← h.dictGet body.methods name with
    | some found => return some found
    | none =>
      if body.bases.isRef then
        firstFound (h.classAttrWithin name length) (← h.objects body.bases).toList
      else
        return none

/-- Looks a name up on a class and its bases. -/
def classAttr (h : Heap) (name v : Value) : Except Stop (Option Value) :=
  h.classAttrWithin name (h.slots.size + 1) v

/-- Looks a name up on an instance, class or module. -/
def getAttr (h : Heap) (object name : Value) : Except Stop (Option Value) := do
  match ← h.kindOf object with
  | .instanceObj =>
    let body ← h.instanceBody object
    match ← h.dictGet body.attributes name with
    | some found => return some found
    | none => h.classAttr name body.classRef
  | .moduleObj => h.dictGet (← h.moduleBody object).globals name
  | .classObj => h.classAttr name object
  | found => refuse (.typeMismatch "instance, class or module" found)

omit [Digest] in
/-- The dict in which an instance, class or module binds names. -/
def attributeDict (h : Heap) (object : Value) : Except Stop Value := do
  match ← h.kindOf object with
  | .instanceObj => return (← h.instanceBody object).attributes
  | .classObj => return (← h.classBody object).methods
  | .moduleObj => return (← h.moduleBody object).globals
  | found => refuse (.typeMismatch "instance, class or module" found)

/-- Binds a name on an instance, class or module. -/
def setAttr (roots : List Value) (object name value : Value) : HeapM Unit := do
  let dict ← (← get).attributeDict object
  protecting [object] (dictPut roots dict name value)

end ObjectHeap.Heap
