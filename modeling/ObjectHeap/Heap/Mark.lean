import ObjectHeap.Heap.Basic

/-! # Marking

Marking finds the blocks that can be reached. *Shading* a white block turns it grey
and pushes it on the mark stack; *scanning* a grey block turns it black and shades
what it refers to. The stack has a fixed number of entries: a block that finds it full
stays grey, and a later pass over all slots picks it up.
-/

namespace ObjectHeap

/-- The state of marking. -/
structure Marker where
  slots : Array (Option Block)
  stack : Array Nat
  limit : Nat
  /-- Whether a block was shaded while the stack was full. -/
  overflowed : Bool
  marked : Nat
  rescans : Nat

namespace Marker

def color? (slots : Array (Option Block)) (slot : Nat) : Option Color :=
  slots[slot]?.join.map (·.header.color)

def painted (block : Block) (color : Color) : Block :=
  { block with header := { block.header with color } }

/-- Whether a slot holds a block that is not black yet. -/
def isPending (content : Option Block) : Bool :=
  content.any (·.header.color != .black)

/-- The number of blocks that are not black yet. -/
def pending (m : Marker) : Nat := m.slots.toList.countP isPending

/-- Turns a white block grey and takes note of it. -/
def shade (m : Marker) (v : Value) : Except Fault Marker :=
  match v.slot? with
  | none => .ok m
  | some slot =>
    match m.slots[slot]? with
    | some (some block) =>
      if block.header.color = .white then
        let slots := m.slots.setIfInBounds slot (some (painted block .grey))
        if m.stack.size < m.limit then
          .ok { m with slots, stack := m.stack.push slot, marked := m.marked + 1 }
        else
          .ok { m with slots, overflowed := true, marked := m.marked + 1 }
      else
        .ok m
    | _ => .error (.danglingWhileMarking slot)

def shadeAll (m : Marker) (values : List Value) : Except Fault Marker := values.foldlM shade m

/-- Turns a block black and shades what it refers to. A black block is done already. -/
def scan (m : Marker) (slot : Nat) : Except Fault Marker :=
  match m.slots[slot]? with
  | some (some block) =>
    if block.header.color = .black then .ok m
    else
      let slots := m.slots.setIfInBounds slot (some (painted block .black))
      { m with slots }.shadeAll block.body.edges
  | _ => .ok m

theorem pending_set_le {slots : Array (Option Block)} {slot : Nat} {old new : Option Block}
    (hold : slots[slot]? = some old) (h : isPending new = true → isPending old = true) :
    (slots.setIfInBounds slot new).toList.countP isPending ≤ slots.toList.countP isPending := by
  obtain ⟨hlt, hget⟩ := Array.getElem?_eq_some_iff.mp hold
  have hget' : slots.toList[slot] = old := by simpa using hget
  have hpos : isPending old = true → 0 < slots.toList.countP isPending := fun hp =>
    List.countP_pos_iff.mpr ⟨old, hget' ▸ List.getElem_mem _, hp⟩
  rw [Array.toList_setIfInBounds, List.countP_set (by simpa using hlt), hget']
  cases hn : isPending new <;> cases ho : isPending old <;> simp_all

theorem pending_set_lt {slots : Array (Option Block)} {slot : Nat} {old new : Option Block}
    (hold : slots[slot]? = some old) (hpending : isPending old = true)
    (hdone : isPending new = false) :
    (slots.setIfInBounds slot new).toList.countP isPending < slots.toList.countP isPending := by
  obtain ⟨hlt, hget⟩ := Array.getElem?_eq_some_iff.mp hold
  have hget' : slots.toList[slot] = old := by simpa using hget
  have hpos : 0 < slots.toList.countP isPending :=
    List.countP_pos_iff.mpr ⟨old, hget' ▸ List.getElem_mem _, hpending⟩
  rw [Array.toList_setIfInBounds, List.countP_set (by simpa using hlt), hget', hpending, hdone]
  simp only [↓reduceIte, Bool.false_eq_true]
  omega

/-- Shading leaves no more blocks to be done than before. -/
theorem pending_shade_le {m m' : Marker} {v : Value} (h : m.shade v = .ok m') :
    m'.pending ≤ m.pending := by
  unfold shade at h
  split at h
  next => cases h; exact Nat.le_refl _
  next slot hslot =>
    split at h
    next block hblock =>
      split at h
      next hwhite =>
        have hle : (m.slots.setIfInBounds slot (some (painted block .grey))).toList.countP
            isPending ≤ m.slots.toList.countP isPending :=
          pending_set_le hblock fun _ => by simp [isPending, hwhite]
        split at h <;> cases h <;> exact hle
      next => cases h; exact Nat.le_refl _
    next => cases h

theorem pending_shadeAll_le {values : List Value} {m m' : Marker}
    (h : m.shadeAll values = .ok m') : m'.pending ≤ m.pending := by
  induction values generalizing m with
  | nil => cases h; exact Nat.le_refl _
  | cons v rest ih =>
      rw [shadeAll, List.foldlM_cons] at h
      cases hv : m.shade v with
      | error e => simp [hv, bind, Except.bind] at h
      | ok next =>
          rw [hv] at h
          exact Nat.le_trans (ih h) (pending_shade_le hv)

/-- Scanning a block that is not black yet gets it done; scanning any other changes nothing. -/
theorem scan_progress {m m' : Marker} {slot : Nat} (h : m.scan slot = .ok m') :
    m'.pending < m.pending ∨ m' = m := by
  unfold scan at h
  split at h
  next block hblock =>
    split at h
    next => cases h; exact Or.inr rfl
    next hcolor =>
      have hlt : (m.slots.setIfInBounds slot (some (painted block .black))).toList.countP
          isPending < m.slots.toList.countP isPending :=
        pending_set_lt hblock (by simp [isPending, hcolor]) (by simp [isPending, painted])
      exact Or.inl (Nat.lt_of_le_of_lt (pending_shadeAll_le h) hlt)
  next => cases h; exact Or.inr rfl

set_option linter.unusedVariables false in
/-- Scans the blocks on the stack, last in first out, until it is empty. -/
def drainStack (m : Marker) : Except Fault Marker :=
  match hstack : m.stack.back? with
  | none => .ok m
  | some slot =>
    match hscan : { m with stack := m.stack.pop }.scan slot with
    | .error fault => .error fault
    | .ok m' => m'.drainStack
termination_by (m.pending, m.stack.size)
decreasing_by
  rcases scan_progress hscan with hlt | heq
  · exact Prod.Lex.left _ _ hlt
  · have hne : m.stack.size ≠ 0 := by
      intro h0
      simp [Array.back?, h0] at hstack
    subst heq
    apply Prod.Lex.right
    simp
    omega

/-- Passes over all slots, and scans each grey block and whatever that puts on the stack. -/
def rescan (m : Marker) : Except Fault Marker :=
  (List.range m.slots.size).foldlM (fun m slot => do
    if color? m.slots slot = some .grey then
      let m ← m.scan slot
      m.drainStack
    else
      return m) m

/-- Scans until no grey block is left. After each overflow of the stack all slots are passed
over; a pass that gets nothing done finds nothing left to do. -/
def drain (m : Marker) : Except Fault Marker := do
  let drained ← m.drainStack
  if !drained.overflowed then return drained
  let again ← { drained with overflowed := false, rescans := drained.rescans + 1 }.rescan
  if again.pending < m.pending then again.drain else return again
termination_by m.pending

/-- The handles of the pinned blocks, in slot order. -/
def pinned (slots : Array (Option Block)) : List Value :=
  slots.toList.zipIdx.filterMap fun (content, slot) =>
    content.bind fun block => if block.header.pinned then some (Value.ofSlot slot) else none

end Marker

namespace Heap

/-- Marks what can be reached from the roots, and then what can be reached from the registers,
from the values of a payload that is about to get a block, and from the pinned blocks. The mark
stack has to be empty. -/
def mark (h : Heap) (roots awaited : List Value) : Except Fault Marker := do
  require h.markStack.isEmpty .misfit
  let start : Marker :=
    { slots := h.slots, stack := h.markStack, limit := h.settings.markStackSize,
      overflowed := false, marked := 0, rescans := 0 }
  let rooted ← (← start.shadeAll roots).drain
  let held ← rooted.shadeAll (h.registers.toList ++ awaited ++ Marker.pinned rooted.slots)
  held.drain

end Heap

end ObjectHeap
