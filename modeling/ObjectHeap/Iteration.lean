import ObjectHeap.Mapping
import ObjectHeap.Sequence

/-! # Iteration

An iterator yields the elements of a sequence, the characters of a string as strings, the
integers of a range, or the keys of a table. It remembers how far it has come: an index, a
byte offset, or the slot after the last key.
-/

namespace ObjectHeap

/-- The character that starts at a byte offset of a text. There is none at the end, past it,
or inside of a character. -/
def charAtByte? : List Char → Nat → Option Char
  | [], _ => none
  | c :: _, 0 => some c
  | c :: rest, offset =>
    if offset < c.utf8Size then none else charAtByte? rest (offset - c.utf8Size)

namespace Heap

/-- The item at a place of an object and the place after it, if there is one. The iterator is
kept alive while an item is made. -/
def itemAt (roots : List Value) (iterator iterable : Value) (position : Nat) :
    HeapM (Option (Value × Nat)) := do
  let h ← get
  let kind ← h.kindOf iterable
  match iterable.slot? with
  | none => throw (.refused (.typeMismatch "iterable" kind))
  | some slot =>
    if kind = .string then
      match charAtByte? (← h.text iterable).toList position with
      | none => return none
      | some c =>
        let item ← protecting [iterator] (newString roots (String.singleton c))
        return some (item, position + c.utf8Size)
    else if kind = .range then
      match ← h.body slot with
      | .range range =>
        match ← range.nth? position with
        | none => return none
        | some n =>
          let item ← protecting [iterator] (newInt roots n)
          return some (item, position + 1)
      | _ => throw (.fault .misfit)
    else if kind.isSequence then
      if (← h.len iterable) ≤ position then return none
      return some (← h.seqGet iterable position, position + 1)
    else if kind.isHash then
      return ((← h.table slot).nextOccupied? position).map fun (index, key, _) => (key, index + 1)
    else
      throw (.refused (.typeMismatch "iterable" kind))

/-- The next item of an iterator, or nothing at its end. -/
def iterNext (roots : List Value) (iterator : Value) : HeapM (Option Value) := do
  let (slot, block) ← (← get).expectBlock iterator "iterator" (· == .iterator)
  match block.body with
  | .iterator state =>
    match ← itemAt roots iterator state.iterable state.position with
    | none => return none
    | some (item, position) =>
      modify (·.setBody slot (.iterator { state with position }))
      return some item
  | _ => throw (.fault .misfit)

end Heap

end ObjectHeap
