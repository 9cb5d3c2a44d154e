import ObjectHeap.Proofs.Comparison

/-! # Walks with explicit stacks

Keys are hashed and compared without recursion along tuples. Hashing keeps the open tuples on a
stack, and comparing keeps the pairs that are still to compare on a worklist, with a walk of its
own for each pair of set members. Neither loop checks where it has been before. Here both are
run for a number of rounds. In the heaps of a run membership is well-founded, so that there is
a number of rounds by which they have ended, with the same result as the recursive walks.
-/

namespace ObjectHeap

/-- The step is no walk that has no end. -/
def Finishes {α : Type} (x : Except Fault α) : Prop := x ≠ .error .endless

namespace Finishes

variable {α β : Type}

theorem ok (a : α) : Finishes (.ok a) := by
  intro heq
  cases heq

theorem error {fault : Fault} (hne : fault ≠ .endless) :
    Finishes (.error fault : Except Fault α) :=
  fun heq => hne (Except.error.inj heq)

/-- Walks compose: the second one starts from what the first one found. -/
theorem bind {x : Except Fault α} {f : α → Except Fault β} (hx : Finishes x)
    (hf : ∀ a, x = .ok a → Finishes (f a)) : Finishes (x >>= f) := by
  cases x with
  | ok a => exact hf a rfl
  | error fault => exact error fun heq => hx (congrArg Except.error heq)

theorem map {x : Except Fault α} {f : α → β} (hx : Finishes x) : Finishes (f <$> x) := by
  cases x with
  | ok a => exact ok (f a)
  | error fault => exact error fun heq => hx (congrArg Except.error heq)

theorem allM {p : α → Except Fault Bool} {items : List α} (hp : ∀ item ∈ items, Finishes (p item)) :
    Finishes (items.allM p) := by
  induction items with
  | nil => exact ok true
  | cons item items ih =>
      refine bind (hp item List.mem_cons_self) fun holds _ => ?_
      cases holds with
      | true => exact ih fun item hitem => hp item (List.mem_cons_of_mem _ hitem)
      | false => exact ok false

end Finishes

theorem allM_congr {ε α : Type} {p q : α → Except ε Bool} {items : List α}
    (hpq : ∀ item ∈ items, p item = q item) : items.allM p = items.allM q := by
  induction items with
  | nil => rfl
  | cons item items ih =>
      rw [List.allM, List.allM, hpq item List.mem_cons_self,
        ih fun item hitem => hpq item (List.mem_cons_of_mem _ hitem)]

namespace ProbeTable

variable {t : ProbeTable} {same same' : Value → Except Fault Bool}

/-- A search asks about the keys of the table only. -/
theorem probe_congr (hsame : ∀ hash key value, (hash, key, value) ∈ t.toList → same key = same' key)
    (hash : UInt64) : t.probe hash same = t.probe hash same' := by
  suffices hfrom : ∀ steps index spare,
      t.probeFrom hash same steps index spare = t.probeFrom hash same' steps index spare from
    hfrom ..
  intro steps
  induction steps with
  | zero => exact fun _ spare => by cases spare <;> rfl
  | succ steps ih =>
      intro index spare
      rw [probeFrom, probeFrom]
      cases hentry : t.entries[index]? with
      | none => rfl
      | some entry =>
          cases entry with
          | empty => rfl
          | deleted => exact ih ..
          | occupied stored key value =>
              simp only [hsame stored key value (mem_toList.mpr ⟨index, hentry⟩), ih]

/-- A search ends if all questions about keys do. -/
theorem finishes_probe
    (hsame : ∀ hash key value, (hash, key, value) ∈ t.toList → Finishes (same key))
    (hash : UInt64) : Finishes (t.probe hash same) := by
  suffices hfrom : ∀ steps index spare, Finishes (t.probeFrom hash same steps index spare) from
    hfrom _ _ _
  intro steps
  induction steps with
  | zero => exact fun _ spare => by cases spare <;> exact Finishes.ok _
  | succ steps ih =>
      intro index spare
      rw [probeFrom]
      cases hentry : t.entries[index]? with
      | none => exact Finishes.error Fault.noConfusion
      | some entry =>
          cases entry with
          | empty => exact Finishes.ok _
          | deleted => exact ih _ _
          | occupied stored key value =>
              dsimp only
              split
              next =>
                refine Finishes.bind (hsame stored key value (mem_toList.mpr ⟨index, hentry⟩))
                  fun found _ => ?_
                cases found with
                | true => exact Finishes.ok _
                | false => exact ih _ _
              next => exact ih _ _

end ProbeTable

/-! ## The loops -/

/-- How far a key is hashed without going into its elements. -/
inductive KeyHash where
  | done (hash : UInt64)
  | items (items : List Value)

namespace Heap

section Hashing

variable [Digest]

/-- Hashes everything of a block but the elements of a tuple. -/
def shallowBlockHash (key : Value) (block : Block) : Except Stop KeyHash :=
  if block.header.kind.isHashable then
    match block.body with
    | .bytes seq => .ok (.done (Digest.bytes seq.toList))
    | .shorts seq => .ok (.done (Digest.shorts seq.toList))
    | .objects seq => .ok (.items seq.toList)
    | .hash table => .ok (.done
        (table.toList.foldl (fun acc (hash, _, _) => acc ^^^ hash) (Digest.count table.size)))
    | _ => .ok (.done (Digest.word key.word))
  else refuse (.unhashable block.header.kind)

/-- Hashes everything of a key but the elements of a tuple. -/
def shallowHash (h : Heap) (key : Value) : Except Stop KeyHash := do
  match ← h.number? key with
  | some n => return .done (numberHash n)
  | none =>
    match key.slot? with
    | none => return .done (Digest.word key.word)
    | some slot => shallowBlockHash key (← h.block slot)

/-- The hash of a key, from that of its elements. -/
def finishHash (hashItem : Value → Except Stop UInt64) : KeyHash → Except Stop UInt64
  | .done hash => .ok hash
  | .items items =>
    items.foldlM (fun acc item => do return Digest.pair acc (← hashItem item))
      (Digest.count items.length)

/-- The loop over open tuples. Each has its items still to hash and its running hash, and the
`outer` ones wait for the innermost. -/
def hashLoop (h : Heap) : (rounds : Nat) → (items : List Value) → (acc : UInt64) →
    (outer : List (List Value × UInt64)) → Except Stop UInt64
  | 0, _, _, _ => .error (.fault .endless)
  | _ + 1, [], acc, [] => .ok acc
  | rounds + 1, [], acc, (items, acc') :: outer =>
    h.hashLoop rounds items (Digest.pair acc' acc) outer
  | rounds + 1, item :: items, acc, outer => do
    match ← h.shallowHash item with
    | .done hash => h.hashLoop rounds items (Digest.pair acc hash) outer
    | .items inner => h.hashLoop rounds inner (Digest.count inner.length) ((items, acc) :: outer)

/-- The hash of a key by a stack of open tuples, within a number of rounds. -/
def stackHash (h : Heap) (rounds : Nat) (key : Value) : Except Stop UInt64 := do
  match ← h.shallowHash key with
  | .done hash => return hash
  | .items items => h.hashLoop rounds items (Digest.count items.length) []

end Hashing

/-- The pairs that are left to compare after a final answer. -/
def verdict (same : Bool) : Option (List (Value × Value)) := if same then some [] else none

/-- Whether all keys of one table are found in another. -/
def allFound (equal : Value → Value → Except Fault Bool) (x y : ProbeTable) : Except Fault Bool :=
  x.toList.allM fun (hash, key, _) => do
    match ← y.probe hash fun k => equal k key with
    | .found _ => return true
    | _ => return false

/-- Compares blocks one level deep, given the equality of set members. Gives the pairs of tuple
elements that are left to compare, the last one first, or nothing if the blocks differ. -/
def shallowBlockEqual (equal : Value → Value → Except Fault Bool) (a b : Block) :
    Except Fault (Option (List (Value × Value))) :=
  if comparable a.header.kind b.header.kind then
    match a.body, b.body with
    | .bytes x, .bytes y => .ok (verdict (x.toArray == y.toArray))
    | .shorts x, .shorts y => .ok (verdict (x.toArray == y.toArray))
    | .objects x, .objects y =>
      if a.header.kind != .tuple || x.len != y.len then .ok none
      else .ok (some (x.toList.zip y.toList).reverse)
    | .hash x, .hash y =>
      if x.keepsValues || x.size != y.size then .ok none
      else verdict <$> allFound equal x y
    | _, _ => .ok none
  else .ok none

/-- Compares the blocks that two values refer to one level deep. -/
def shallowRefEqual (h : Heap) (equal : Value → Value → Except Fault Bool) (a b : Value) :
    Except Fault (Option (List (Value × Value))) := do
  match a.slot?, b.slot? with
  | some slotA, some slotB => shallowBlockEqual equal (← h.block slotA) (← h.block slotB)
  | _, _ => return none

/-- Compares values one level deep. -/
def shallowEqual (h : Heap) (equal : Value → Value → Except Fault Bool) (a b : Value) :
    Except Fault (Option (List (Value × Value))) := do
  if a = b then return some []
  match ← h.number? a, ← h.number? b with
  | some x, some y => return verdict (x.equals y)
  | _, _ => h.shallowRefEqual equal a b

/-- The loop over pending pairs. Members of sets are compared by loops of their own. -/
def equalLoop (h : Heap) : (rounds : Nat) → (pending : List (Value × Value)) → Except Fault Bool
  | 0, _ => .error .endless
  | _ + 1, [] => .ok true
  | rounds + 1, (a, b) :: pending => do
    match ← h.shallowEqual (fun x y => h.equalLoop rounds [(x, y)]) a b with
    | none => return false
    | some pairs => h.equalLoop rounds (pairs ++ pending)

/-! ## Hashing -/

section Hashing

variable [Digest] {admits : Value → Prop} {h : Heap}

/-- The hash of a block is a shallow look and then the hashes of the items found. -/
theorem blockHash_eq_shallow {hashItem : Value → Except Stop UInt64} {block : Block}
    (hlen : ∀ seq, block.body = .objects seq → seq.toList.length = seq.len) (key : Value) :
    blockHash hashItem key block = shallowBlockHash key block >>= finishHash hashItem := by
  rw [blockHash, shallowBlockHash]
  split
  next =>
    cases hbody : block.body with
    | objects seq =>
        simp only [← hlen seq hbody]
        rfl
    | _ => rfl
  next => rfl

/-- A walk over a key hashes it shallowly and then its elements. -/
theorem hashWithin_eq_shallow
    (hlen : ∀ slot block seq, h.block? slot = some block → block.body = .objects seq →
      seq.toList.length = seq.len) (depth : Nat) (key : Value) :
    h.hashWithin (depth + 1) key = h.shallowHash key >>= finishHash (h.hashWithin depth) := by
  rw [hashWithin_succ, shallowHash]
  cases h.number? key with
  | error => rfl
  | ok n =>
      cases n with
      | some n => rfl
      | none =>
          cases key.slot? with
          | none => rfl
          | some slot =>
              cases hblock : h.block? slot with
              | none =>
                  simp only [liftM_ok_bind, block, hblock]
                  rfl
              | some block =>
                  simp only [liftM_ok_bind, block_eq hblock, hblock]
                  exact blockHash_eq_shallow (hlen slot block · hblock) key

theorem Coherent.length_toList (hc : h.Coherent admits) {slot : Nat} {block : Block}
    {seq : BoundedSeq Value} (hblock : h.block? slot = some block)
    (hbody : block.body = .objects seq) : seq.toList.length = seq.len := by
  have hvalid := hc.valid slot block hblock
  rw [hbody] at hvalid
  exact BoundedSeq.Valid.length_toList hvalid

/-- The items left to hash are the elements of a block. -/
theorem shallowHash_items {v : Value} {items : List Value}
    (hshallow : h.shallowHash v = .ok (.items items)) :
    ∃ slot block seq, v.slot? = some slot ∧ h.block? slot = some block ∧
      block.header.kind.isHashable = true ∧ block.body = .objects seq ∧ items = seq.toList := by
  rw [shallowHash] at hshallow
  cases hnumber : h.number? v with
  | error => simp [hnumber, bind, Except.bind] at hshallow
  | ok n =>
      cases n with
      | some n => simp [hnumber, pure, Except.pure] at hshallow
      | none =>
          cases hslot : v.slot? with
          | none => simp [hnumber, hslot, pure, Except.pure] at hshallow
          | some slot =>
              cases hblock : h.block? slot with
              | none =>
                  simp only [hnumber, hslot, liftM_ok_bind, block, hblock] at hshallow
                  cases hshallow
              | some block =>
                  simp only [hnumber, hslot, liftM_ok_bind, block_eq hblock,
                    shallowBlockHash] at hshallow
                  split at hshallow
                  next hkind =>
                    cases hbody : block.body with
                    | objects seq =>
                        simp only [hbody] at hshallow
                        cases hshallow
                        exact ⟨slot, block, seq, rfl, hblock, hkind, hbody, rfl⟩
                    | _ => simp [hbody] at hshallow
                  next => cases hshallow

/-- The items that a shallow look finds are walked over in one step less. -/
theorem Coherent.reaches_item (hc : h.Coherent admits) {rank : Nat → Nat}
    (hrank : h.RankedBy rank) {depth : Nat} {v item : Value} {items : List Value}
    (hdepth : Reaches rank (depth + 1) v) (hshallow : h.shallowHash v = .ok (.items items))
    (hitem : item ∈ items) : Reaches rank depth item := by
  obtain ⟨slot, block, seq, hslot, hblock, hkind, hbody, rfl⟩ := shallowHash_items hshallow
  have htuple := Block.kind_of_objects (hc.fits slot block hblock) hbody hkind
  refine hdepth.part hrank hslot hblock ?_
  rw [Block.parts_tuple htuple, hbody]
  exact hitem

/-- Whether the loop over open tuples hashes an item, and then goes on, as a walk does that gives
`result`. -/
def LoopHashes (h : Heap) (item : Value) (result : Except Stop UInt64) : Prop :=
  ∃ used, ∀ rounds items acc outer, h.hashLoop (used + rounds) (item :: items) acc outer =
    result >>= fun hash => h.hashLoop rounds items (Digest.pair acc hash) outer

/-- By induction on the items: the loop hashes them one after another. -/
theorem hashLoop_foldlM {hashItem : Value → Except Stop UInt64} {items : List Value}
    (hitems : ∀ item ∈ items, h.LoopHashes item (hashItem item)) :
    ∃ used, ∀ rounds acc outer, h.hashLoop (used + rounds) items acc outer =
      items.foldlM (fun acc item => do return Digest.pair acc (← hashItem item)) acc >>=
        fun hash => h.hashLoop rounds [] hash outer := by
  induction items with
  | nil => exact ⟨0, fun rounds acc outer => by rw [Nat.zero_add]; rfl⟩
  | cons item items ih =>
      obtain ⟨first, hfirst⟩ := hitems item List.mem_cons_self
      obtain ⟨used, hused⟩ := ih fun item hitem => hitems item (List.mem_cons_of_mem _ hitem)
      refine ⟨first + used, fun rounds acc outer => ?_⟩
      rw [Nat.add_assoc, hfirst, List.foldlM_cons]
      cases hashItem item with
      | error => rfl
      | ok hash => exact hused rounds (Digest.pair acc hash) outer

/-- The loop hashes a value from its elements if it hashes these. -/
theorem loopHashes_of_items {hashItem : Value → Except Stop UInt64} {v : Value}
    (hitems : ∀ items, h.shallowHash v = .ok (.items items) →
      ∀ item ∈ items, h.LoopHashes item (hashItem item)) :
    h.LoopHashes v (h.shallowHash v >>= finishHash hashItem) := by
  cases hshallow : h.shallowHash v with
  | error stop =>
      refine ⟨1, fun rounds items acc outer => ?_⟩
      rw [Nat.add_comm, hashLoop, hshallow]
      rfl
  | ok start =>
      cases start with
      | done hash =>
          refine ⟨1, fun rounds items acc outer => ?_⟩
          rw [Nat.add_comm, hashLoop, hshallow]
          rfl
      | items inner =>
          obtain ⟨used, hused⟩ := hashLoop_foldlM (hitems inner hshallow)
          -- one round opens the tuple, and one closes it
          refine ⟨1 + (used + 1), fun rounds items acc outer => ?_⟩
          rw [Nat.add_assoc, Nat.add_comm, hashLoop, hshallow, Nat.add_assoc]
          refine (hused (1 + rounds) _ _).trans ?_
          change _ = (inner.foldlM _ _) >>= _
          congr 1
          funext hash
          rw [Nat.add_comm, hashLoop]

/-- With enough rounds, a stack of open tuples hashes a value from its elements, if the loop hashes
these. -/
theorem stackHash_of_items {hashItem : Value → Except Stop UInt64} {v : Value}
    (hitems : ∀ items, h.shallowHash v = .ok (.items items) →
      ∀ item ∈ items, h.LoopHashes item (hashItem item)) :
    ∃ enough, ∀ rounds ≥ enough,
      h.stackHash rounds v = h.shallowHash v >>= finishHash hashItem := by
  cases hshallow : h.shallowHash v with
  | error => exact ⟨0, fun rounds _ => by rw [stackHash, hshallow]; rfl⟩
  | ok start =>
      cases start with
      | done => exact ⟨0, fun rounds _ => by rw [stackHash, hshallow]; rfl⟩
      | items items =>
          obtain ⟨used, hused⟩ := hashLoop_foldlM (hitems items hshallow)
          refine ⟨used + 1, fun rounds hrounds => ?_⟩
          obtain ⟨more, rfl⟩ := Nat.exists_eq_add_of_le hrounds
          rw [stackHash, hshallow, Nat.add_assoc, Nat.add_comm 1]
          refine (hused (more + 1) _ _).trans ?_
          exact bind_pure _

/-- The loop hashes an item as a walk does that goes deep enough. -/
theorem Coherent.loopHashes (hc : h.Coherent admits) {rank : Nat → Nat} (hrank : h.RankedBy rank)
    {depth : Nat} {v : Value} (hdepth : Reaches rank depth v) :
    h.LoopHashes v (h.hashWithin depth v) := by
  induction depth generalizing v with
  | zero => exact absurd hdepth.1 (Nat.lt_irrefl 0)
  | succ depth ih =>
      rw [hashWithin_eq_shallow fun _ _ _ => hc.length_toList]
      exact loopHashes_of_items fun items hshallow item hitem =>
        ih (hc.reaches_item hrank hdepth hshallow hitem)

/-- With enough rounds, a stack of open tuples gives the hash of a key. -/
theorem Coherent.stackHash_eq (hc : h.Coherent admits) {v : Value} (hv : h.Usable admits v) :
    ∃ enough, ∀ rounds ≥ enough, h.stackHash rounds v = h.hashOf v := by
  obtain ⟨rank, hrank, hreaches⟩ := hc.exists_rank
  rw [hashOf, hashWithin_eq_shallow fun _ _ _ => hc.length_toList]
  exact stackHash_of_items fun items hshallow item hitem =>
    hc.loopHashes hrank (hc.reaches_item hrank (hreaches v hv) hshallow hitem)

end Hashing

/-! ## Comparing -/

/-- Decides from the pairs that are left to compare. -/
def finishEqual (equal : Value → Value → Except Fault Bool) :
    Option (List (Value × Value)) → Except Fault Bool
  | none => .ok false
  | some pairs => pairs.allM fun (p, q) => equal p q

theorem finishEqual_verdict (equal : Value → Value → Except Fault Bool) (same : Bool) :
    finishEqual equal (verdict same) = .ok same := by
  cases same <;> rfl

variable {h : Heap}

/-- Comparing blocks is a shallow look and then the comparison of the pairs found. -/
theorem blockEquals_eq_shallow (equal : Value → Value → Except Fault Bool) (A B : Block) :
    blockEquals equal A B = shallowBlockEqual equal A B >>= finishEqual equal := by
  rw [blockEquals, shallowBlockEqual]
  split
  next =>
    cases A.body with
    | bytes x =>
        cases B.body with
        | bytes y => exact (finishEqual_verdict ..).symm
        | _ => rfl
    | shorts x =>
        cases B.body with
        | shorts y => exact (finishEqual_verdict ..).symm
        | _ => rfl
    | objects x =>
        cases B.body with
        | objects y =>
            dsimp only
            split <;> rfl
        | _ => rfl
    | hash x =>
        cases B.body with
        | hash y =>
            dsimp only
            split
            next => rfl
            next =>
              change allFound equal x y = _
              cases allFound equal x y with
              | error => rfl
              | ok same => exact (finishEqual_verdict ..).symm
        | _ => rfl
    | _ => rfl
  next => rfl

/-- What comparing blocks one level deep can do: it settles the matter, leaves the elements of
two tuples, or searches the members of one set in another. -/
theorem shallowBlockEqual_cases {A B : Block} (hA : A.body.fits A.header.kind = true)
    (hB : B.body.fits B.header.kind = true) :
    (∃ same, ∀ equal, shallowBlockEqual equal A B = .ok (verdict same)) ∨
      (∃ x y, A.content? = some (.tuple x) ∧ B.content? = some (.tuple y) ∧
        ∀ equal, shallowBlockEqual equal A B = .ok (some (x.zip y).reverse)) ∨
      ∃ x y, A.content? = some (.set x) ∧ B.content? = some (.set y) ∧
        ∀ equal, shallowBlockEqual equal A B = verdict <$> allFound equal x y := by
  by_cases hcomparable : comparable A.header.kind B.header.kind = true
  case neg => exact Or.inl ⟨false, fun equal => by rw [shallowBlockEqual, if_neg hcomparable]; rfl⟩
  simp only [shallowBlockEqual, if_pos hcomparable]
  cases hx : A.body with
  | bytes x =>
      cases hy : B.body with
      | bytes y => exact Or.inl ⟨_, fun _ => rfl⟩
      | _ => exact Or.inl ⟨false, fun _ => rfl⟩
  | shorts x =>
      cases hy : B.body with
      | shorts y => exact Or.inl ⟨_, fun _ => rfl⟩
      | _ => exact Or.inl ⟨false, fun _ => rfl⟩
  | objects x =>
      cases hy : B.body with
      | objects y =>
          rw [hx] at hA
          rw [hy] at hB
          dsimp only
          split
          next => exact Or.inl ⟨false, fun _ => rfl⟩
          next htuple =>
            have hkind : A.header.kind = .tuple := by
              simp only [Bool.or_eq_true, bne_iff_ne, not_or, not_not] at htuple
              exact htuple.1
            have hsame := (comparable_objects (beq_iff_eq.mp hA) (beq_iff_eq.mp hB)).mp hcomparable
            exact Or.inr (Or.inl ⟨x.toList, y.toList, Block.content?_of_objects hx hkind,
              Block.content?_of_objects hy (hsame ▸ hkind), fun _ => rfl⟩)
      | _ => exact Or.inl ⟨false, fun _ => rfl⟩
  | hash x =>
      cases hy : B.body with
      | hash y =>
          rw [hx] at hA
          rw [hy] at hB
          dsimp only
          split
          next => exact Or.inl ⟨false, fun _ => rfl⟩
          next hset =>
            have hkeeps : x.keepsValues = false := by
              simp only [Bool.or_eq_true, not_or, Bool.not_eq_true] at hset
              exact hset.1
            have hkeeps' : y.keepsValues = false :=
              ((comparable_tables hA hB).mp hcomparable).symm.trans hkeeps
            exact Or.inr (Or.inr ⟨x, y, Block.content?_of_hash hx hkeeps,
              Block.content?_of_hash hy hkeeps', fun _ => rfl⟩)
      | _ => exact Or.inl ⟨false, fun _ => rfl⟩
  | _ => exact Or.inl ⟨false, fun _ => rfl⟩

section Values

variable {admits : Value → Prop} {a b : Value}

/-- Of two values one is malformed, both are numbers, one is inline, or both are blocks. -/
theorem number?_cases (ha : h.Usable admits a) (hb : h.Usable admits b) :
    (∃ fault, Excused admits fault ∧ (h.number? a = .error fault ∨
        ∃ x, h.number? a = .ok x ∧ h.number? b = .error fault)) ∨
      (∃ m n, h.number? a = .ok (some m) ∧ h.number? b = .ok (some n)) ∨
      ∃ x y, h.number? a = .ok x ∧ h.number? b = .ok y ∧ (x = none ∨ y = none) ∧
        ((a.slot? = none ∨ b.slot? = none) ∨ ∃ s t A B, a.slot? = some s ∧ b.slot? = some t ∧
          h.block? s = some A ∧ h.block? t = some B) := by
  have hlooks := number?_looks ha
  have hlooks' := number?_looks hb
  cases hx : h.number? a with
  | error fault =>
      rw [hx] at hlooks
      exact Or.inl ⟨fault, hlooks, Or.inl rfl⟩
  | ok x =>
      cases hy : h.number? b with
      | error fault =>
          rw [hy] at hlooks'
          exact Or.inl ⟨fault, hlooks', Or.inr ⟨x, rfl, rfl⟩⟩
      | ok y =>
          by_cases hnumber : x = none ∨ y = none
          case neg =>
            obtain ⟨⟨m, rfl⟩, n, rfl⟩ : (∃ m, x = some m) ∧ ∃ n, y = some n := by
              cases x <;> cases y <;> simp_all
            exact Or.inr (Or.inl ⟨m, n, rfl, rfl⟩)
          refine Or.inr (Or.inr ⟨x, y, rfl, rfl, hnumber, ?_⟩)
          cases hs : a.slot? with
          | none => exact Or.inl (Or.inl rfl)
          | some s =>
              cases ht : b.slot? with
              | none => exact Or.inl (Or.inr rfl)
              | some t =>
                  obtain ⟨A, hA⟩ := ha.block? hs
                  obtain ⟨B, hB⟩ := hb.block? ht
                  exact Or.inr ⟨s, t, A, B, rfl, rfl, hA, hB⟩

variable (equal : Value → Value → Except Fault Bool)

theorem shallowEqual_fault (hab : a ≠ b) {fault : Fault} (hfault : h.number? a = .error fault ∨
    ∃ x, h.number? a = .ok x ∧ h.number? b = .error fault) :
    h.shallowEqual equal a b = .error fault := by
  rcases hfault with hx | ⟨x, hx, hy⟩
  · rw [shallowEqual, if_neg hab, hx]
    rfl
  · rw [shallowEqual, if_neg hab, hx, hy]
    rfl

theorem shallowEqual_numbers (hab : a ≠ b) {m n : Number} (hx : h.number? a = .ok (some m))
    (hy : h.number? b = .ok (some n)) :
    h.shallowEqual equal a b = .ok (verdict (m.equals n)) := by
  rw [shallowEqual, if_neg hab, hx, hy]
  rfl

theorem shallowEqual_refs (hab : a ≠ b) {x y : Option Number} (hx : h.number? a = .ok x)
    (hy : h.number? b = .ok y) (hnumber : x = none ∨ y = none) :
    h.shallowEqual equal a b = h.shallowRefEqual equal a b := by
  rw [shallowEqual, if_neg hab, hx, hy]
  rcases hnumber with rfl | rfl
  · rfl
  · cases x <;> rfl

theorem shallowRefEqual_inline (hinline : a.slot? = none ∨ b.slot? = none) :
    h.shallowRefEqual equal a b = .ok none := by
  rw [shallowRefEqual]
  rcases hinline with hslot | hslot
  · rw [hslot]
    rfl
  · rw [hslot]
    cases a.slot? <;> rfl

theorem shallowRefEqual_blocks {s t : Nat} {A B : Block} (hs : a.slot? = some s)
    (ht : b.slot? = some t) (hA : h.block? s = some A) (hB : h.block? t = some B) :
    h.shallowRefEqual equal a b = shallowBlockEqual equal A B := by
  rw [shallowRefEqual, hs, ht]
  simp only [block_eq hA, block_eq hB]
  rfl

/-- A walk over two values compares them shallowly and then the pairs that are left. -/
theorem equalWithin_eq_shallow (ha : h.Usable admits a) (hb : h.Usable admits b) (depth : Nat) :
    h.equalWithin (depth + 1) a b =
      h.shallowEqual (h.equalWithin depth) a b >>= finishEqual (h.equalWithin depth) := by
  by_cases hab : a = b
  · rw [shallowEqual, hab, equalWithin_self, if_pos rfl]
    rfl
  rcases number?_cases ha hb with ⟨fault, _, hfault⟩ | ⟨m, n, hx, hy⟩ |
    ⟨x, y, hx, hy, hnumber, hinline | ⟨s, t, A, B, hs, ht, hA, hB⟩⟩
  · rw [shallowEqual_fault _ hab hfault]
    rcases hfault with hx | ⟨x, hx, hy⟩
    · rw [equalWithin, if_neg hab, hx]
      rfl
    · rw [equalWithin, if_neg hab, hx, hy]
      rfl
  · rw [equalWithin_numbers hx hy, decide_eq_false hab, Bool.false_or,
      shallowEqual_numbers _ hab hx hy]
    exact (finishEqual_verdict ..).symm
  · rw [equalWithin_inline hx hy hnumber hinline, decide_eq_false hab,
      shallowEqual_refs _ hab hx hy hnumber, shallowRefEqual_inline _ hinline]
    rfl
  · rw [equalWithin_blocks hx hy hnumber hs ht hA hB, if_neg hab, blockEquals_eq_shallow,
      shallowEqual_refs _ hab hx hy hnumber, shallowRefEqual_blocks _ hs ht hA hB]

end Values

section Coherent

variable [Digest] {admits : Value → Prop} {a b : Value}

/-- What comparing values one level deep can do, along with a fault if a word is malformed. -/
theorem Coherent.shallowEqual_cases (hc : h.Coherent admits) (ha : h.Usable admits a)
    (hb : h.Usable admits b) :
    (∃ result, Finishes result ∧
        ∀ equal, h.shallowEqual equal a b = verdict <$> result) ∨
      (∃ x y, h.content? a = some (.tuple x) ∧ h.content? b = some (.tuple y) ∧
        ∀ equal, h.shallowEqual equal a b = .ok (some (x.zip y).reverse)) ∨
      ∃ x y, h.content? a = some (.set x) ∧ h.content? b = some (.set y) ∧
        ∀ equal, h.shallowEqual equal a b = verdict <$> allFound equal x y := by
  by_cases hab : a = b
  · refine Or.inl ⟨.ok true, Finishes.ok _, fun equal => ?_⟩
    rw [shallowEqual, if_pos hab]
    rfl
  rcases number?_cases ha hb with ⟨fault, hexcused, hfault⟩ | ⟨m, n, hx, hy⟩ |
    ⟨x, y, hx, hy, hnumber, hinline | ⟨s, t, A, B, hs, ht, hA, hB⟩⟩
  · exact Or.inl ⟨.error fault, Finishes.error hexcused.ne_endless, fun equal =>
      shallowEqual_fault equal hab hfault⟩
  · exact Or.inl ⟨.ok _, Finishes.ok _, fun equal => shallowEqual_numbers equal hab hx hy⟩
  · refine Or.inl ⟨.ok false, Finishes.ok _, fun equal => ?_⟩
    rw [shallowEqual_refs equal hab hx hy hnumber, shallowRefEqual_inline equal hinline]
    rfl
  · simp only [shallowEqual_refs _ hab hx hy hnumber, shallowRefEqual_blocks _ hs ht hA hB,
      content?_block hs hA, content?_block ht hB]
    rcases shallowBlockEqual_cases (hc.fits s A hA) (hc.fits t B hB) with ⟨same, hsame⟩ | hrest
    · exact Or.inl ⟨.ok same, Finishes.ok _, hsame⟩
    · exact Or.inr hrest

/-- Whether a comparison of `a` and `b` may come to that of `p` and `q`: one is a member of the
one value, and one of the other. -/
def Beneath (h : Heap) (a b p q : Value) : Prop :=
  ∃ c d, h.content? a = some c ∧ h.content? b = some d ∧
    (p ∈ c.members ∧ q ∈ d.members ∨ p ∈ d.members ∧ q ∈ c.members)

omit [Digest] in
/-- Pairs beneath two values are walked over in one step less. -/
theorem Beneath.reaches {height : Nat → Nat} (hheight : h.HeightBy height) {p q : Value}
    (hbeneath : h.Beneath a b p q) {depth : Nat} (ha : Reaches height (depth + 1) a)
    (hb : Reaches height (depth + 1) b) : Reaches height depth p ∧ Reaches height depth q := by
  obtain ⟨c, d, hc, hd, ⟨hp, hq⟩ | ⟨hp, hq⟩⟩ := hbeneath
  · exact ⟨ha.member hheight hc hp, hb.member hheight hd hq⟩
  · exact ⟨hb.member hheight hd hp, ha.member hheight hc hq⟩

theorem Beneath.usable (hc : h.Coherent admits) {p q : Value} (hbeneath : h.Beneath a b p q) :
    h.Usable admits p ∧ h.Usable admits q := by
  obtain ⟨c, d, hca, hdb, ⟨hp, hq⟩ | ⟨hp, hq⟩⟩ := hbeneath
  · exact ⟨hc.members_usable hca hp, hc.members_usable hdb hq⟩
  · exact ⟨hc.members_usable hdb hp, hc.members_usable hca hq⟩

omit [Digest] in
/-- There are finitely many pairs beneath two values. -/
theorem finite_beneath (h : Heap) (a b : Value) :
    {pair : Value × Value | h.Beneath a b pair.1 pair.2}.Finite := by
  let members (v : Value) := (h.content? v).elim [] Content.members
  have hfinite := (members a ++ members b).finite_toSet
  refine (hfinite.prod hfinite).subset ?_
  rintro ⟨p, q⟩ ⟨c, d, hc, hd, hmem⟩
  simp only [members, hc, hd, Option.elim_some, Set.mem_prod, Set.mem_ofPred_eq, List.mem_append]
  exact hmem.elim (fun hmem => ⟨Or.inl hmem.1, Or.inr hmem.2⟩)
    fun hmem => ⟨Or.inr hmem.1, Or.inl hmem.2⟩

omit [Digest] in
theorem beneath_of_sets {x y : ProbeTable} (hx : h.content? a = some (.set x))
    (hy : h.content? b = some (.set y)) {hash hash' : UInt64} {p q v w : Value}
    (hp : (hash, p, v) ∈ y.toList) (hq : (hash', q, w) ∈ x.toList) : h.Beneath a b p q :=
  ⟨_, _, hx, hy, Or.inr ⟨List.mem_map_of_mem hp, List.mem_map_of_mem hq⟩⟩

/-- The pairs left to compare are pairs of members. -/
theorem Coherent.beneath_of_mem (hc : h.Coherent admits) (ha : h.Usable admits a)
    (hb : h.Usable admits b) {equal : Value → Value → Except Fault Bool}
    {pairs : List (Value × Value)} (hpairs : h.shallowEqual equal a b = .ok (some pairs))
    {pair : Value × Value} (hmem : pair ∈ pairs) : h.Beneath a b pair.1 pair.2 := by
  have hnone {result : Except Fault Bool} (heq : verdict <$> result = .ok (some pairs)) :
      pairs = [] := by
    cases result with
    | error => cases heq
    | ok same =>
        cases same with
        | true => exact (Option.some.inj (Except.ok.inj heq)).symm
        | false => cases heq
  rcases hc.shallowEqual_cases ha hb with ⟨result, _, heq⟩ | ⟨x, y, hx, hy, heq⟩ |
    ⟨x, y, hx, hy, heq⟩
  · rw [heq] at hpairs
    rw [hnone hpairs] at hmem
    cases hmem
  · rw [heq] at hpairs
    cases hpairs
    obtain ⟨hp, hq⟩ := List.of_mem_zip (List.mem_reverse.mp hmem)
    exact ⟨_, _, hx, hy, Or.inl ⟨hp, hq⟩⟩
  · rw [heq] at hpairs
    rw [hnone hpairs] at hmem
    cases hmem

/-- Comparing one level deep asks about pairs of members only. -/
theorem Coherent.shallowEqual_congr (hc : h.Coherent admits) (ha : h.Usable admits a)
    (hb : h.Usable admits b) {equal equal' : Value → Value → Except Fault Bool}
    (hsame : ∀ p q, h.Beneath a b p q → equal p q = equal' p q) :
    h.shallowEqual equal a b = h.shallowEqual equal' a b := by
  rcases hc.shallowEqual_cases ha hb with ⟨result, _, heq⟩ | ⟨x, y, hx, hy, heq⟩ |
    ⟨x, y, hx, hy, heq⟩
  · rw [heq, heq]
  · rw [heq, heq]
  · rw [heq, heq]
    refine congrArg _ (allM_congr fun ⟨hash, key, value⟩ hentry => ?_)
    dsimp only
    rw [ProbeTable.probe_congr fun _ k _ hk => hsame k key (beneath_of_sets hx hy hk hentry)]

/-- A shallow look ends if the comparisons beneath it do. -/
theorem Coherent.finishes_shallowEqual (hc : h.Coherent admits) (ha : h.Usable admits a)
    (hb : h.Usable admits b) {equal : Value → Value → Except Fault Bool}
    (hequal : ∀ p q, h.Beneath a b p q → Finishes (equal p q)) :
    Finishes (h.shallowEqual equal a b) := by
  rcases hc.shallowEqual_cases ha hb with ⟨result, hresult, heq⟩ | ⟨x, y, hx, hy, heq⟩ |
    ⟨x, y, hx, hy, heq⟩
  · rw [heq]
    exact hresult.map
  · rw [heq]
    exact Finishes.ok _
  · rw [heq]
    refine Finishes.map (Finishes.allM fun ⟨hash, key, value⟩ hentry => ?_)
    refine Finishes.bind (ProbeTable.finishes_probe (fun _ k _ hk =>
      hequal k key (beneath_of_sets hx hy hk hentry)) hash) fun answer _ => ?_
    cases answer <;> exact Finishes.ok _

/-- A walk over two values ends if it goes deep enough. -/
theorem Coherent.finishes_equalWithin (hc : h.Coherent admits) {height : Nat → Nat}
    (hheight : h.HeightBy height) {depth : Nat} {a b : Value} (ha : h.Usable admits a)
    (hb : h.Usable admits b) (hadepth : Reaches height depth a) (hbdepth : Reaches height depth b) :
    Finishes (h.equalWithin depth a b) := by
  induction depth generalizing a b with
  | zero => exact absurd hadepth.1 (Nat.lt_irrefl 0)
  | succ depth ih =>
      have hbelow (p q : Value) (hbeneath : h.Beneath a b p q) :
          Finishes (h.equalWithin depth p q) := by
        obtain ⟨hp, hq⟩ := hbeneath.reaches hheight hadepth hbdepth
        obtain ⟨hpu, hqu⟩ := hbeneath.usable hc
        exact ih hpu hqu hp hq
      rw [equalWithin_eq_shallow ha hb]
      refine Finishes.bind (hc.finishes_shallowEqual ha hb hbelow) fun rest hrest => ?_
      cases rest with
      | none => exact Finishes.ok _
      | some pairs =>
          exact Finishes.allM fun pair hpair => hbelow _ _ (hc.beneath_of_mem ha hb hrest hpair)

/-- Whether the loop over pending pairs compares two values, and then goes on, as a walk does that
gives `result`. It needs some rounds more, for the loops over set members. -/
def LoopCompares (h : Heap) (a b : Value) (result : Except Fault Bool) : Prop :=
  ∃ used need, ∀ rounds ≥ need, ∀ pending, h.equalLoop (used + rounds) ((a, b) :: pending) =
    result >>= fun same => if same then h.equalLoop rounds pending else .ok false

omit [Digest] in
theorem LoopCompares.eventually {result : Except Fault Bool} (hloop : h.LoopCompares a b result) :
    ∀ᶠ rounds in Filter.atTop, h.equalLoop rounds [(a, b)] = result := by
  obtain ⟨used, need, hused⟩ := hloop
  refine Filter.eventually_atTop.mpr ⟨used + (need + 1), fun rounds hrounds => ?_⟩
  obtain ⟨more, rfl⟩ := Nat.exists_eq_add_of_le hrounds
  have hstep := hused (need + more + 1) (by omega) []
  rw [show used + (need + 1) + more = used + (need + more + 1) by omega, hstep, equalLoop]
  cases result with
  | error => rfl
  | ok same => cases same <;> rfl

omit [Digest] in
/-- By induction on the pairs: the loop compares them one after another and stops at the first
that differs. -/
theorem equalLoop_allM {equal : Value → Value → Except Fault Bool} {pairs : List (Value × Value)}
    (hpairs : ∀ pair ∈ pairs, h.LoopCompares pair.1 pair.2 (equal pair.1 pair.2)) :
    ∃ used need, ∀ rounds ≥ need, ∀ pending, h.equalLoop (used + rounds) (pairs ++ pending) =
      (pairs.allM fun (p, q) => equal p q) >>= fun same =>
        if same then h.equalLoop rounds pending else .ok false := by
  induction pairs with
  | nil => exact ⟨0, 0, fun rounds _ pending => by rw [Nat.zero_add]; rfl⟩
  | cons pair pairs ih =>
      obtain ⟨p, q⟩ := pair
      obtain ⟨first, need, hfirst⟩ := hpairs (p, q) List.mem_cons_self
      obtain ⟨used, need', hused⟩ := ih fun pair hpair => hpairs pair (List.mem_cons_of_mem _ hpair)
      refine ⟨first + used, max need need', fun rounds hrounds pending => ?_⟩
      rw [Nat.add_assoc, List.cons_append, hfirst (used + rounds) (by omega), List.allM]
      dsimp only at hfirst ⊢
      cases equal p q with
      | error => rfl
      | ok same =>
          cases same with
          | true => exact hused rounds (by omega) pending
          | false => rfl

/-- The loop compares two values as a walk does that goes deep enough. -/
theorem Coherent.loopCompares (hc : h.Coherent admits) {height : Nat → Nat}
    (hheight : h.HeightBy height) {depth : Nat} {a b : Value} (ha : h.Usable admits a)
    (hb : h.Usable admits b) (hadepth : Reaches height depth a) (hbdepth : Reaches height depth b) :
    h.LoopCompares a b (h.equalWithin depth a b) := by
  induction depth generalizing a b with
  | zero => exact absurd hadepth.1 (Nat.lt_irrefl 0)
  | succ depth ih =>
      have hbelow (p q : Value) (hbeneath : h.Beneath a b p q) :
          h.LoopCompares p q (h.equalWithin depth p q) := by
        obtain ⟨hp, hq⟩ := hbeneath.reaches hheight hadepth hbdepth
        obtain ⟨hpu, hqu⟩ := hbeneath.usable hc
        exact ih hpu hqu hp hq
      -- there are finitely many members, so one number of rounds is enough for all of them
      obtain ⟨need, hneed⟩ := Filter.eventually_atTop.mp <|
        (Filter.eventually_all_finite (h.finite_beneath a b)).mpr fun pair hpair =>
          (hbelow pair.1 pair.2 hpair).eventually
      have hshallow (rounds : Nat) (hrounds : need ≤ rounds) :
          h.shallowEqual (fun x y => h.equalLoop rounds [(x, y)]) a b =
            h.shallowEqual (h.equalWithin depth) a b :=
        hc.shallowEqual_congr ha hb fun p q hpq => hneed rounds hrounds (p, q) hpq
      rw [equalWithin_eq_shallow ha hb]
      cases hrest : h.shallowEqual (h.equalWithin depth) a b with
      | error fault =>
          refine ⟨1, need, fun rounds hrounds pending => ?_⟩
          rw [Nat.add_comm, equalLoop, hshallow rounds hrounds, hrest]
          rfl
      | ok rest =>
          cases rest with
          | none =>
              refine ⟨1, need, fun rounds hrounds pending => ?_⟩
              rw [Nat.add_comm, equalLoop, hshallow rounds hrounds, hrest]
              rfl
          | some pairs =>
              obtain ⟨used, need', hused⟩ := equalLoop_allM fun pair hpair =>
                hbelow pair.1 pair.2 (hc.beneath_of_mem ha hb hrest hpair)
              refine ⟨1 + used, max need need', fun rounds hrounds pending => ?_⟩
              rw [Nat.add_assoc, Nat.add_comm, equalLoop, hshallow _ (by omega), hrest]
              exact hused rounds (by omega) pending

end Coherent

/-! ## Runs -/

section Runs

variable [Digest] {admits : Value → Prop}

/-- In the heaps of a run membership in tuples and sets is well-founded. So walks over keys end,
and the loops that do without recursion give their results, once they have enough rounds. -/
theorem Reachable.key_walks_end (hr : h.Reachable admits) :
    WellFounded (fun inner outer => h.Encloses outer inner) ∧
      (∀ v, h.Usable admits v → h.hashOf v ≠ .error (.fault .endless) ∧
        ∃ enough, ∀ rounds ≥ enough, h.stackHash rounds v = h.hashOf v) ∧
      ∀ a b, h.Usable admits a → h.Usable admits b → h.valuesEqual a b ≠ .error .endless ∧
        ∃ enough, ∀ rounds ≥ enough, h.equalLoop rounds [(a, b)] = h.valuesEqual a b := by
  have hc := hr.sound.coherent
  obtain ⟨height, hheight, hreaches⟩ := hc.exists_height
  have hdepth (v : Value) (hv : h.Usable admits v) :
      Reaches height (h.slots.size * h.slots.size + 1) v :=
    (hreaches v hv).mono (Nat.succ_le_succ (Nat.le_mul_self _))
  refine ⟨?_, fun v hv => ⟨fun hendless => ?_, hc.stackHash_eq hv⟩, fun a b ha hb => ⟨?_, ?_⟩⟩
  · exact Subrelation.wf (hheight _ _) (measure height).wf
  · exact ((hashOf_gives hc hv).excuse hendless).ne_endless rfl
  · exact hc.finishes_equalWithin hheight ha hb (hdepth a ha) (hdepth b hb)
  · exact Filter.eventually_atTop.mp
      (hc.loopCompares hheight ha hb (hdepth a ha) (hdepth b hb)).eventually

end Runs

theorem key_walks_end_nested : ∃ (h : Heap) (rounds : Nat) (hash : UInt64),
    h.hashOf (Value.ofSlot 3) = .ok hash ∧ h.stackHash rounds (Value.ofSlot 3) = .ok hash ∧
      h.equalLoop rounds [(Value.ofSlot 3, Value.ofSlot 4)] = .ok true := by
  obtain ⟨h, hr, ⟨h3, h4⟩, hhash, _, hequal⟩ := exists_nested
  obtain ⟨hash, hhash⟩ := keyable_of_toBool hhash
  obtain ⟨_, hhashes, hcompares⟩ := hr.key_walks_end
  obtain ⟨_, enough, hstack⟩ := hhashes _ (usable_of_passes h3)
  obtain ⟨_, enough', hloop⟩ := hcompares _ _ (usable_of_passes h3) (usable_of_passes h4)
  exact ⟨h, max enough enough', hash, hhash, (hstack _ (le_max_left ..)).trans hhash,
    (hloop _ (le_max_right ..)).trans hequal⟩

end Heap

end ObjectHeap
