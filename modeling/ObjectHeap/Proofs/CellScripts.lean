import ObjectHeap.Proofs.Cells

/-! # Scripts of edits of a sequence

A sequence by itself is a list with room for a number of elements. Each edit clears the cells that
it takes out of use, and a change of the length relies on that: it brings cells into use as they
are. So after any script of edits the cells out of use hold the default element, and what had been
in them before is not seen again.
-/

namespace ObjectHeap

/-- An edit of a sequence. -/
inductive SeqEdit (α : Type) where
  | push (item : α)
  | pop
  | set (index : Nat) (item : α)
  | setLen (len : Nat)
  | grow (capacity : Nat)

/-- What an edit answers: whether it was made, or the element that it took off. -/
inductive SeqReply (α : Type) where
  | made (done : Bool)
  | taken (item : Option α)
  | grown
deriving DecidableEq

/-! ## Lists with room -/

/-- A list with room for a number of elements. -/
structure BoundedList (α : Type) where
  items : List α
  capacity : Nat
deriving DecidableEq

namespace BoundedList

variable {α : Type}

/-- The list after an edit, and the answer. -/
def apply [Inhabited α] (l : BoundedList α) : SeqEdit α → SeqReply α × BoundedList α
  | .push item =>
    if l.items.length = l.capacity then (.made false, l)
    else (.made true, { l with items := l.items ++ [item] })
  | .pop => (.taken l.items.getLast?, { l with items := l.items.dropLast })
  | .set index item =>
    (.made (index < l.items.length), { l with items := l.items.set index item })
  | .setLen len =>
    if l.capacity < len then (.made false, l)
    else
      let padding := List.replicate (len - l.items.length) default
      (.made true, { l with items := l.items.take len ++ padding })
  | .grow capacity => (.grown, { l with capacity })

def edited [Inhabited α] (l : BoundedList α) : List (SeqEdit α) → List (SeqReply α) × BoundedList α
  | [] => ([], l)
  | edit :: rest =>
    let (reply, next) := l.apply edit
    let (replies, last) := next.edited rest
    (reply :: replies, last)

/-- Whether an edit may be asked for: room is never taken away. -/
def Allows (l : BoundedList α) : SeqEdit α → Prop
  | .grow capacity => l.capacity ≤ capacity
  | _ => True

/-- Whether the edits of a script may be asked for, one after another. -/
def AllowsAll [Inhabited α] (l : BoundedList α) : List (SeqEdit α) → Prop
  | [] => True
  | edit :: rest => l.Allows edit ∧ (l.apply edit).2.AllowsAll rest

end BoundedList

/-! ## Sequences -/

namespace BoundedSeq

variable {α : Type} {s s' : BoundedSeq α} {l : BoundedList α}

/-- The answer of an edit that may be refused, and what is left. -/
def outcome (s : BoundedSeq α) : Option (BoundedSeq α) → SeqReply α × BoundedSeq α
  | some s' => (.made true, s')
  | none => (.made false, s)

variable [Inhabited α]

def edit (s : BoundedSeq α) : SeqEdit α → Except Fault (SeqReply α × BoundedSeq α)
  | .push item => return s.outcome (s.push? item)
  | .pop =>
    match s.pop? with
    | some (item, s') => return (.taken (some item), s')
    | none => return (.taken none, s)
  | .set index item => return s.outcome (s.set? index item)
  | .setLen len => return s.outcome (s.setLen? len)
  | .grow capacity => do return (.grown, ← s.grow capacity)

def edited (s : BoundedSeq α) :
    List (SeqEdit α) → Except Fault (List (SeqReply α) × BoundedSeq α)
  | [] => return ([], s)
  | edit :: rest => do
    let (reply, next) ← s.edit edit
    let (replies, last) ← next.edited rest
    return (reply :: replies, last)

/-- A new sequence, and the list that it is. -/
inductive Opens : BoundedSeq α → BoundedList α → Prop
  | withCapacity (capacity : Nat) : Opens (withCapacity capacity) ⟨[], capacity⟩
  | zeroed (len : Nat) : Opens (zeroed len) ⟨List.replicate len default, len⟩
  | filled (items : Array α) : Opens (filled items) ⟨items.toList, items.size⟩

/-- A valid sequence with the elements and the room of a list. -/
structure Represents (s : BoundedSeq α) (l : BoundedList α) : Prop where
  valid : s.Valid
  toList_eq : s.toList = l.items
  capacity_eq : s.capacity = l.capacity

/-- A sequence represents the list that it is opened with. -/
theorem Opens.represents (h : s.Opens l) : s.Represents l := by
  cases h with
  | withCapacity capacity =>
      exact ⟨valid_withCapacity capacity, toList_withCapacity capacity,
        capacity_withCapacity capacity⟩
  | zeroed len => exact ⟨valid_zeroed len, toList_zeroed len, capacity_zeroed len⟩
  | filled items => exact ⟨valid_filled items, toList_filled items, capacity_filled items⟩

/-- No element can be added just where all cells are in use. -/
theorem push?_eq_none (h : s.Valid) (hfull : s.toList.length = s.capacity) (item : α) :
    s.push? item = none := by
  rw [h.length_toList] at hfull
  exact if_pos (by simp [isFull, hfull])

/-! ## One edit -/

/-- A push answers as the list does, and the sequence represents the list after it. -/
theorem Represents.push (h : s.Represents l) (item : α) :
    ∃ s', s.edit (.push item) = .ok ((l.apply (.push item)).1, s') ∧
      s'.Represents (l.apply (.push item)).2 := by
  by_cases hfull : l.items.length = l.capacity
  · have hpush : s.push? item = none :=
      push?_eq_none h.valid (by rw [h.toList_eq, h.capacity_eq, hfull]) item
    refine ⟨s, ?_, ?_⟩
    · rw [edit, hpush, BoundedList.apply, if_pos hfull]
      rfl
    · rw [BoundedList.apply, if_pos hfull]
      exact h
  · have hroom : s.toList.length < s.capacity := by
      have hle := h.valid.len_le
      rw [← h.valid.length_toList, h.toList_eq, h.capacity_eq] at hle
      rw [h.toList_eq, h.capacity_eq]
      omega
    obtain ⟨s', hpush, hadjusts, hlist⟩ := push?_spec h.valid hroom item
    refine ⟨s', ?_, ?_⟩
    · rw [edit, hpush, BoundedList.apply, if_neg hfull]
      rfl
    · rw [BoundedList.apply, if_neg hfull]
      exact ⟨hadjusts.valid, hlist.trans (by rw [h.toList_eq]),
        hadjusts.capacity_eq.trans h.capacity_eq⟩

/-- A pop answers as the list does, and the sequence represents the list after it. -/
theorem Represents.pop (h : s.Represents l) :
    ∃ s', s.edit .pop = .ok ((l.apply .pop).1, s') ∧ s'.Represents (l.apply .pop).2 := by
  rcases pop?_cases h.valid with ⟨hpop, hnil⟩ | ⟨item, s', hpop, hadjusts, hlist⟩
  · rw [h.toList_eq] at hnil
    refine ⟨s, ?_, h.valid, ?_, h.capacity_eq⟩
    · simp only [edit, hpop, BoundedList.apply, hnil]
      rfl
    · simp only [BoundedList.apply, hnil, h.toList_eq, List.dropLast_nil]
  · rw [h.toList_eq] at hlist
    refine ⟨s', ?_, hadjusts.valid, ?_, hadjusts.capacity_eq.trans h.capacity_eq⟩
    · simp only [edit, hpop, BoundedList.apply, hlist, List.getLast?_concat]
      rfl
    · simp only [BoundedList.apply, hlist, List.dropLast_concat]

/-- Setting an item answers as the list does, and the sequence represents the list after it. -/
theorem Represents.set (h : s.Represents l) (index : Nat) (item : α) :
    ∃ s', s.edit (.set index item) = .ok ((l.apply (.set index item)).1, s') ∧
      s'.Represents (l.apply (.set index item)).2 := by
  rcases set?_cases h.valid index item with ⟨hset, hle⟩ | ⟨s', hset, hlt, hadjusts, hlist⟩
  · rw [h.toList_eq] at hle
    refine ⟨s, ?_, h.valid, ?_, h.capacity_eq⟩
    · simp only [edit, hset, outcome, BoundedList.apply, Nat.not_lt.mpr hle, decide_false]
      rfl
    · rw [h.toList_eq]
      exact (List.set_eq_of_length_le hle).symm
  · rw [h.toList_eq] at hlt hlist
    refine ⟨s', ?_, hadjusts.valid, hlist, hadjusts.capacity_eq.trans h.capacity_eq⟩
    simp only [edit, hset, outcome, BoundedList.apply, hlt, decide_true]
    rfl

/-- Setting the length answers as the list does, and the sequence represents the list after
it. -/
theorem Represents.setLen (h : s.Represents l) (len : Nat) :
    ∃ s', s.edit (.setLen len) = .ok ((l.apply (.setLen len)).1, s') ∧
      s'.Represents (l.apply (.setLen len)).2 := by
  rcases setLen?_cases h.valid len with ⟨hset, hlt⟩ | ⟨s', hset, hle, hadjusts, hlist⟩
  · rw [h.capacity_eq] at hlt
    refine ⟨s, ?_, ?_⟩
    · rw [edit, hset, BoundedList.apply, if_pos hlt]
      rfl
    · rw [BoundedList.apply, if_pos hlt]
      exact h
  · rw [h.capacity_eq] at hle
    rw [h.toList_eq] at hlist
    refine ⟨s', ?_, ?_⟩
    · rw [edit, hset, BoundedList.apply, if_neg (Nat.not_lt.mpr hle)]
      rfl
    · rw [BoundedList.apply, if_neg (Nat.not_lt.mpr hle)]
      exact ⟨hadjusts.valid, hlist, hadjusts.capacity_eq.trans h.capacity_eq⟩

/-- Growing answers as the list does, and the sequence represents the list after it. -/
theorem Represents.grow (h : s.Represents l) {capacity : Nat} (hle : l.capacity ≤ capacity) :
    ∃ s', s.edit (.grow capacity) = .ok ((l.apply (.grow capacity)).1, s') ∧
      s'.Represents (l.apply (.grow capacity)).2 := by
  rw [← h.capacity_eq] at hle
  obtain ⟨s', hgrow, hvalid, hcapacity, _, hlist⟩ := grow_spec h.valid hle
  refine ⟨s', ?_, hvalid, hlist.trans h.toList_eq, hcapacity⟩
  rw [edit, hgrow]
  rfl

/-- An edit of a sequence answers as that of its list does, and leaves a sequence with the list
that the edit leaves. -/
theorem Represents.edit (h : s.Represents l) {edit : SeqEdit α} (hallows : l.Allows edit) :
    ∃ s', s.edit edit = .ok ((l.apply edit).1, s') ∧ s'.Represents (l.apply edit).2 := by
  cases edit with
  | push item => exact h.push item
  | pop => exact h.pop
  | set index item => exact h.set index item
  | setLen len => exact h.setLen len
  | grow capacity => exact h.grow hallows

/-! ## A script -/

/-- By induction on the script: all answers are those of the list. -/
theorem Represents.edited (h : s.Represents l) {script : List (SeqEdit α)}
    (hallows : l.AllowsAll script) :
    ∃ s', s.edited script = .ok ((l.edited script).1, s') ∧ s'.Represents (l.edited script).2 := by
  induction script generalizing s l with
  | nil => exact ⟨s, rfl, h⟩
  | cons edit rest ih =>
      obtain ⟨next, hnext, hrepresents⟩ := h.edit hallows.1
      obtain ⟨s', hs', hlast⟩ := ih hrepresents hallows.2
      refine ⟨s', ?_, hlast⟩
      simp only [BoundedSeq.edited, hnext, hs', bind, Except.bind]
      rfl

/-- A script of edits that never takes room away runs to its end on any new sequence. It gives
the answers that it gives on a list with room, and leaves the elements and the room of that list.
Every cell past the elements holds the default element. -/
theorem edited_is_list (hs : s.Opens l) {script : List (SeqEdit α)}
    (hallows : l.AllowsAll script) :
    ∃ s', s.edited script = .ok ((l.edited script).1, s') ∧
      s'.toList = (l.edited script).2.items ∧ s'.len = (l.edited script).2.items.length ∧
      s'.capacity = (l.edited script).2.capacity ∧ s'.len ≤ s'.capacity ∧
      ∀ i, s'.len ≤ i → i < s'.capacity → s'.cells[i]? = some default := by
  obtain ⟨s', hs', hrepresents⟩ := hs.represents.edited hallows
  refine ⟨s', hs', hrepresents.toList_eq, ?_, hrepresents.capacity_eq, hrepresents.valid.len_le, ?_⟩
  · rw [← hrepresents.toList_eq, hrepresents.valid.length_toList]
  · intro i hle hlt
    have hcell : s'.cells[i]? = some s'.cells[i] := Array.getElem?_eq_getElem hlt
    rw [hcell, hrepresents.valid.unused i _ hle hcell]

/-- Two elements are dropped before their cells come into use again, one of them to be taken off
and overwritten. Edits past the room or past the elements are refused in between. -/
def reusingScript : List (SeqEdit Nat) :=
  [.setLen 0, .setLen 2, .pop, .push 5, .push 6, .grow 4, .setLen 5, .set 1 7, .set 2 8, .setLen 4]

theorem edited_is_list_reusing : ∃ s',
    (filled #[8, 9]).edited reusingScript =
      .ok ([.made true, .made true, .taken (some 0), .made true, .made false, .grown, .made false,
        .made true, .made false, .made true], s') ∧
      s'.toList = [0, 7, 0, 0] ∧ s'.capacity = 4 := by
  have hallows : (⟨[8, 9], 2⟩ : BoundedList Nat).AllowsAll reusingScript := by
    simp [reusingScript, BoundedList.AllowsAll, BoundedList.Allows, BoundedList.apply]
  obtain ⟨s', hs', hlist, _, hcapacity, _⟩ := edited_is_list (.filled #[8, 9]) hallows
  exact ⟨s', hs', hlist, hcapacity⟩

end BoundedSeq

end ObjectHeap
