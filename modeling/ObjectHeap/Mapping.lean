import ObjectHeap.Construct
import ObjectHeap.Key

/-! # Dicts and sets

Access to dicts, sets and frozen sets. An insertion makes room before it touches the table:
a table that would be used beyond its load factor is rehashed, in place if dropping its
tombstones is enough, and else into a larger block.
-/

namespace ObjectHeap.Heap

variable [Digest]

omit [Digest] in
def table (h : Heap) (slot : Nat) : Except Fault ProbeTable := do
  match ← h.body slot with
  | .hash table => return table
  | _ => .error .misfit

omit [Digest] in
/-- Looks for a key with a given hash in the table in a slot. -/
def find (h : Heap) (slot : Nat) (key : Value) (hash : UInt64) : Except Fault Probe := do
  (← h.table slot).probe hash fun k => h.valuesEqual k key

omit [Digest] in
/-- Makes room for one more entry in the table in a slot. -/
def reserveSlot (roots : List Value) (slot : Nat) (operands : List Value) : HeapM Unit := do
  let h ← get
  let table ← h.table slot
  if !table.needsRehash h.settings.loadFactor then return ()
  match ProbeTable.capacityFor? (table.size + 1) h.settings.loadFactor
      h.settings.minHashCapacity with
  | none =>
    let _ ← h.checkSize none
  | some enough =>
    let capacity := max enough table.capacity
    if capacity = table.capacity then
      set (h.setBody slot (.hash (← table.rehashed capacity)))
    else
      let size ← h.checkSize (Layout.hashBlock? table.keepsValues capacity)
      resize roots slot operands size fun
        | .hash table => .hash <$> table.rehashed capacity
        | body => .ok body

/-- Adds an entry to the table in a slot, or changes the value of the entry that is there. -/
def hashInsert (roots : List Value) (slot : Nat) (key value : Value) : HeapM Unit := do
  let h ← get
  let hash ← h.hashOf key
  match ← h.find slot key hash with
  | .found index =>
    set (h.setBody slot (.hash (← (← h.table slot).replaceValue index value)))
  | _ =>
    reserveSlot roots slot [key, value]
    let h ← get
    match ← h.find slot key hash with
    | .vacant index =>
      set (h.setBody slot (.hash (← (← h.table slot).occupy index hash key value)))
    | _ => throw (.fault .misfit)

/-- Takes the entry of a key out of the table in a slot and gives its value. -/
def hashRemove (slot : Nat) (key : Value) : HeapM Value := do
  let h ← get
  let hash ← h.hashOf key
  match ← h.find slot key hash with
  | .found index =>
    match ← (← h.table slot).remove index with
    | (some (_, value), table) =>
      set (h.setBody slot (.hash table))
      return value
    | (none, _) => throw (.fault .misfit)
  | _ => throw (.refused .keyNotFound)

/-- The stored key and the value of the entry of a key. -/
def hashLookup (h : Heap) (slot : Nat) (key : Value) : Except Stop (Option (Value × Value)) := do
  let hash ← h.hashOf key
  match ← h.find slot key hash with
  | .found index =>
    match ← (← h.table slot).entry index with
    | .occupied _ stored value => return some (stored, value)
    | _ => return none
  | _ => return none

omit [Digest] in
def dictSlot (h : Heap) (v : Value) : Except Stop Nat := h.expectSlot v "dict" (· == .dict)

def dictPut (roots : List Value) (dict key value : Value) : HeapM Unit := do
  hashInsert roots (← (← get).dictSlot dict) key value

def dictGet (h : Heap) (dict key : Value) : Except Stop (Option Value) := do
  return (← h.hashLookup (← h.dictSlot dict) key).map (·.2)

/-- Removes a key from a dict and gives its value. -/
def dictDel (dict key : Value) : HeapM Value := do
  hashRemove (← (← get).dictSlot dict) key

omit [Digest] in
def setSlot (h : Heap) (v : Value) : Except Stop Nat :=
  h.expectSlot v "set" fun kind => kind == .set || kind == .frozenSet

omit [Digest] in
/-- The slot of a set that may change. -/
def mutableSetSlot (h : Heap) (v : Value) : Except Stop Nat := do
  let slot ← h.setSlot v
  let kind := (← h.block slot).header.kind
  if kind = .set then return slot else refuse (.immutable kind)

/-- Adds a member to a set, unless an equal one is there. -/
def setPut (roots : List Value) (s key : Value) : HeapM Unit := do
  hashInsert roots (← (← get).mutableSetSlot s) key Value.nil

/-- The member of a set that is equal to a key. -/
def setGet (h : Heap) (s key : Value) : Except Stop (Option Value) := do
  return (← h.hashLookup (← h.setSlot s) key).map (·.1)

def setDel (s key : Value) : HeapM Unit := do
  let _ ← hashRemove (← (← get).mutableSetSlot s) key

/-- Hashes items from first to last, to see that they are keys. -/
def checkKeys (h : Heap) (items : List Value) : Except Stop Unit :=
  items.forM fun item => do
    let _ ← h.hashOf item

/-- The frozen set of some items. Nothing is allocated if one of them is no key. -/
def newFrozenSet (roots : List Value) (items : List Value) : HeapM Value := do
  (← get).checkKeys items
  protecting items do
    let result ← newSet roots .frozenSet items.length
    let slot ← (← get).expectSlot result "frozenset" (· == .frozenSet)
    items.forM fun item => hashInsert roots slot item Value.nil
    return result

omit [Digest] in
/-- The keys and values of a dict, set or frozen set. Members of sets have absent values. -/
def hashEntries (h : Heap) (v : Value) : Except Stop (List (Value × Value)) := do
  let slot ← h.expectSlot v "dict or set" Kind.isHash
  return (← h.table slot).toList.map fun (_, key, value) => (key, value)

end ObjectHeap.Heap
