import ObjectHeap.Outcome

/-! # Sequences of fixed capacity

Storage for one sequence: an array of cells, of which the first `len` are in use.
Operations that do not fit the capacity are refused, and growing is a separate step.
Cells that are not in use hold the default element.
-/

namespace ObjectHeap

/-- A sequence in an array of cells. -/
structure BoundedSeq (α : Type) where
  cells : Array α
  len : Nat
deriving DecidableEq

namespace BoundedSeq

variable {α : Type} [Inhabited α]

/-- An empty sequence with room for `capacity` elements. -/
def withCapacity (capacity : Nat) : BoundedSeq α := ⟨Array.replicate capacity default, 0⟩

/-- A full sequence of default elements. -/
def zeroed (len : Nat) : BoundedSeq α := ⟨Array.replicate len default, len⟩

/-- A full sequence of the given elements. -/
def filled (items : Array α) : BoundedSeq α := ⟨items, items.size⟩

def capacity (s : BoundedSeq α) : Nat := s.cells.size

def isEmpty (s : BoundedSeq α) : Bool := s.len == 0

def isFull (s : BoundedSeq α) : Bool := s.len == s.capacity

/-- The elements in order. -/
def toArray (s : BoundedSeq α) : Array α := s.cells.extract 0 s.len

def toList (s : BoundedSeq α) : List α := s.toArray.toList

@[simp] theorem capacity_withCapacity (n : Nat) :
    (withCapacity n : BoundedSeq α).capacity = n := by
  simp [withCapacity, capacity]

@[simp] theorem capacity_zeroed (n : Nat) : (zeroed n : BoundedSeq α).capacity = n := by
  simp [zeroed, capacity]

omit [Inhabited α] in
@[simp] theorem capacity_filled (items : Array α) : (filled items).capacity = items.size := rfl

@[simp] theorem toList_withCapacity (n : Nat) :
    (withCapacity n : BoundedSeq α).toList = [] := by
  simp [withCapacity, toList, toArray]

@[simp] theorem toList_zeroed (n : Nat) :
    (zeroed n : BoundedSeq α).toList = List.replicate n default := by
  simp [zeroed, toList, toArray]

omit [Inhabited α] in
@[simp] theorem toList_filled (items : Array α) : (filled items).toList = items.toList := by
  simp [filled, toList, toArray]

def get? (s : BoundedSeq α) (index : Nat) : Option α :=
  if index < s.len then s.cells[index]? else none

/-- Replaces the element at an index, if there is one. -/
def set? (s : BoundedSeq α) (index : Nat) (item : α) : Option (BoundedSeq α) :=
  if index < s.len then some { s with cells := s.cells.setIfInBounds index item } else none

/-- Adds an element, if a cell is left. -/
def push? (s : BoundedSeq α) (item : α) : Option (BoundedSeq α) :=
  if s.isFull then none
  else some ⟨s.cells.setIfInBounds s.len item, s.len + 1⟩

/-- Takes the last element off, if there is one, and clears its cell. -/
def pop? (s : BoundedSeq α) : Option (α × BoundedSeq α) :=
  if s.len = 0 then none
  else
    let last := s.len - 1
    some (s.cells.getD last default, ⟨s.cells.setIfInBounds last default, last⟩)

/-- Clears the cells from `start` on, `count` of them. -/
def clear (cells : Array α) (start : Nat) : Nat → Array α
  | 0 => cells
  | count + 1 => clear (cells.setIfInBounds start default) (start + 1) count

/-- Changes the length within the capacity. Cells that fall out of use are cleared. -/
def setLen? (s : BoundedSeq α) (len : Nat) : Option (BoundedSeq α) :=
  if s.capacity < len then none
  else some ⟨clear s.cells len (s.len - len), len⟩

omit [Inhabited α] in
/-- Replaces each element, as its index and the element ask for. -/
def mapIdx (s : BoundedSeq α) (change : Nat → α → α) : BoundedSeq α :=
  { s with cells := s.toArray.mapIdx change ++ s.cells.extract s.len s.capacity }

/-- Moves the elements to a larger array of cells. -/
def grow (s : BoundedSeq α) (capacity : Nat) : Except Fault (BoundedSeq α) :=
  if capacity < s.capacity then .error .misfit
  else .ok ⟨s.toArray ++ Array.replicate (capacity - s.len) default, s.len⟩

end BoundedSeq

end ObjectHeap
