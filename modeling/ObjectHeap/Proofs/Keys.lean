import Mathlib.Data.Finset.Card
import Mathlib.Tactic.Common
import ObjectHeap.Key
import ObjectHeap.Proofs.Cells
import ObjectHeap.Proofs.Fingerprints
import ObjectHeap.Proofs.Outcomes
import ObjectHeap.Proofs.Probing

/-! # Walks over keys

Hashing and comparing keys goes down through tuples and frozen sets. Their nesting has no
cycle, which a *rank* of the slots witnesses, so the walks end before their depth runs out.
They look only at payloads that never change: two heaps that agree on those of a set of values
closed under nesting hash and compare these values alike.
-/

namespace ObjectHeap

/-- Whether the payload of a block of the kind stays as it is. -/
def Kind.isFrozen (kind : Kind) : Bool :=
  !kind.isMutable && kind != .iterator && kind != .frame && kind != .thread

theorem foldlM_congr {α β ε : Type} {f g : β → α → Except ε β} {items : List α}
    (h : ∀ acc, ∀ item ∈ items, f acc item = g acc item) (start : β) :
    items.foldlM f start = items.foldlM g start := by
  induction items generalizing start with
  | nil => rfl
  | cons head rest ih =>
      rw [List.foldlM_cons, List.foldlM_cons, h start head (List.mem_cons_self ..)]
      congr 1
      funext acc
      exact ih (fun acc item hitem => h acc item (List.mem_cons_of_mem _ hitem)) acc

namespace Block

/-- The values that a tuple or a frozen set is made of. -/
def parts (block : Block) : List Value :=
  if block.header.kind = .tuple ∨ block.header.kind = .frozenSet then block.body.edges else []

theorem parts_tuple {block : Block} (h : block.header.kind = .tuple) :
    block.parts = block.body.edges := if_pos (Or.inl h)

theorem parts_frozenSet {block : Block} (h : block.header.kind = .frozenSet) :
    block.parts = block.body.edges := if_pos (Or.inr h)

/-- What a tuple or a frozen set is made of is among the references of its block. -/
theorem mem_edges_of_mem_parts {block : Block} {v : Value} (h : v ∈ block.parts) :
    v ∈ block.body.edges := by
  rw [parts] at h
  split at h
  · exact h
  · cases h

/-- What a change of a block leaves alone: its kind, and the payload if that is frozen. -/
structure Alike (b b' : Block) : Prop where
  kind_eq : b'.header.kind = b.header.kind
  fits : b.body.fits b.header.kind = true
  fits' : b'.body.fits b.header.kind = true
  body_eq : b.header.kind.isFrozen = true → b'.body = b.body

/-- A block whose payload fits its kind is left alone by no change at all. -/
theorem Alike.refl {b : Block} (h : b.body.fits b.header.kind = true) : b.Alike b :=
  ⟨rfl, h, h, fun _ => rfl⟩

/-- The values that a block refers to for good. -/
def fixed (block : Block) : List Value :=
  if block.header.kind.isFrozen then block.body.edges else []

/-- References that are there for good are among those of the block. -/
theorem mem_edges_of_mem_fixed {block : Block} {v : Value} (h : v ∈ block.fixed) :
    v ∈ block.body.edges := by
  rw [fixed] at h
  split at h
  · exact h
  · cases h

/-- A block refers for good to all that it is made of. -/
theorem mem_fixed_of_mem_parts {block : Block} {v : Value} (h : v ∈ block.parts) :
    v ∈ block.fixed := by
  rw [parts] at h
  split at h
  next hkind =>
    rw [fixed, if_pos (by rcases hkind with hk | hk <;> rw [hk] <;> rfl)]
    exact h
  next => cases h

/-- No change of a block touches what it refers to for good. -/
theorem Alike.fixed_eq {b b' : Block} (halike : b.Alike b') : b'.fixed = b.fixed := by
  rw [fixed, fixed, halike.kind_eq]
  split
  next hfrozen => rw [halike.body_eq hfrozen]
  next => rfl

/-- A hashable block with elements is a tuple. -/
theorem kind_of_objects {block : Block} {seq : BoundedSeq Value}
    (hfits : block.body.fits block.header.kind = true) (hbody : block.body = .objects seq)
    (hkind : block.header.kind.isHashable = true) : block.header.kind = .tuple := by
  rw [hbody] at hfits
  simp only [Body.fits, beq_iff_eq] at hfits
  cases hcase : block.header.kind <;>
    first | rfl | simp [hcase, Kind.shape, Kind.isHashable, Kind.isMutable] at hfits hkind

/-- A hashable block with a table is a frozen set. -/
theorem kind_of_hash {block : Block} {table : ProbeTable}
    (hfits : block.body.fits block.header.kind = true) (hbody : block.body = .hash table)
    (hkind : block.header.kind.isHashable = true) : block.header.kind = .frozenSet := by
  rw [hbody] at hfits
  cases hcase : block.header.kind <;>
    first | rfl | simp [hcase, Body.fits, Kind.isHashable, Kind.isMutable] at hfits hkind

end Block

/-- Whether the parts of a payload match: sequences are within their cells, tables can be
searched and members of sets have no values, and no range has a zero step. -/
def Body.Valid : Body → Prop
  | .bytes seq => seq.Valid
  | .shorts seq => seq.Valid
  | .objects seq => seq.Valid
  | .hash table => table.Valid ∧ (table.keepsValues = false →
      ∀ hash key value, (hash, key, value) ∈ table.toList → value = Value.nil)
  | .range r => r.step ≠ 0
  | .frame f => f.stack.Valid
  | _ => True

/-- A payload of a record kind is neither a number nor a sequence nor a table. -/
def Body.IsRecord : Body → Prop
  | .integer _ | .float _ | .bytes _ | .shorts _ | .objects _ | .hash _ => False
  | _ => True

theorem Body.isRecord_of_fits {body : Body} {kind : Kind} (h : body.fits kind = true)
    (hshape : kind.shape = .record) : body.IsRecord := by
  cases body <;> cases kind <;> first | exact trivial | simp [fits, Kind.shape] at h hshape

/-- Hashable kinds that are not frozen are records. -/
theorem Kind.shape_of_hashable {kind : Kind} (h : kind.isHashable = true)
    (hfrozen : kind.isFrozen = false) : kind.shape = .record := by
  cases kind <;> first | rfl | simp [isHashable, isMutable, isFrozen] at h hfrozen

/-- If a relation on numbers below a bound has a rank, it has one below the bound. -/
theorem exists_rank_lt {below : Nat → Nat → Prop} {bound : Nat} {rank : Nat → Nat}
    (hrank : ∀ a b, below a b → rank b < rank a) (hbound : ∀ a b, below a b → b < bound) :
    ∃ rank' : Nat → Nat,
      (∀ a b, below a b → rank' b < rank' a) ∧ ∀ a < bound, rank' a < bound := by
  -- a number gets the count of those with a smaller rank
  let lower (a : Nat) := (Finset.range bound).filter fun other => rank other < rank a
  refine ⟨fun a => (lower a).card, fun a b hab => ?_, fun a ha => ?_⟩
  · have hless := hrank a b hab
    refine Finset.card_lt_card ⟨fun c hc => ?_, fun hsub => ?_⟩
    · rw [Finset.mem_filter] at hc ⊢
      exact ⟨hc.1, Nat.lt_trans hc.2 hless⟩
    · have hb : b ∈ lower a := Finset.mem_filter.mpr ⟨Finset.mem_range.mpr (hbound a b hab), hless⟩
      exact Nat.lt_irrefl _ (Finset.mem_filter.mp (hsub hb)).2
  · have hsub : lower a ⊂ Finset.range bound := by
      refine ⟨Finset.filter_subset _ _, fun hsub => ?_⟩
      exact Nat.lt_irrefl _ (Finset.mem_filter.mp (hsub (Finset.mem_range.mpr ha))).2
    exact Finset.card_range bound ▸ Finset.card_lt_card hsub

namespace Heap

/-- Whether the tuple or frozen set in the slot `a` has a part in the slot `b`. -/
def Nests (h : Heap) (a b : Nat) : Prop :=
  ∃ block v, h.block? a = some block ∧ v ∈ block.parts ∧ v.slot? = some b

/-- A rank that falls along nesting. -/
def RankedBy (h : Heap) (rank : Nat → Nat) : Prop := ∀ a b, h.Nests a b → rank b < rank a

/-- Whether the block in the slot `a` refers to the slot `b` for good. -/
def Keeps (h : Heap) (a b : Nat) : Prop :=
  ∃ block v, h.block? a = some block ∧ v ∈ block.fixed ∧ v.slot? = some b

/-- A rank that falls along references that are there for good. -/
def SettledBy (h : Heap) (rank : Nat → Nat) : Prop := ∀ a b, h.Keeps a b → rank b < rank a

/-- A rank that falls along all references that are there for good falls along nesting. -/
theorem SettledBy.rankedBy {h : Heap} {rank : Nat → Nat} (hrank : h.SettledBy rank) :
    h.RankedBy rank := by
  rintro a b ⟨block, v, hblock, hv, hslot⟩
  exact hrank a b ⟨block, v, hblock, Block.mem_fixed_of_mem_parts hv, hslot⟩

/-- Whether a walk over a value ends within a depth, by the rank of its slot. -/
def Reaches (rank : Nat → Nat) (depth : Nat) (v : Value) : Prop :=
  0 < depth ∧ ∀ slot, v.slot? = some slot → rank slot + 1 < depth

theorem Reaches.mono {rank : Nat → Nat} {depth depth' : Nat} {v : Value}
    (hv : Reaches rank depth v) (hle : depth ≤ depth') : Reaches rank depth' v :=
  ⟨Nat.lt_of_lt_of_le hv.1 hle, fun slot hslot => Nat.lt_of_lt_of_le (hv.2 slot hslot) hle⟩

/-- A walk over a value has one step more to go than one over its parts. -/
theorem Reaches.part {h : Heap} {rank : Nat → Nat} (hrank : h.RankedBy rank) {depth : Nat}
    {v w : Value} {slot : Nat} {block : Block} (hv : Reaches rank (depth + 1) v)
    (hslot : v.slot? = some slot) (hblock : h.block? slot = some block) (hw : w ∈ block.parts) :
    Reaches rank depth w := by
  have hdepth := hv.2 slot hslot
  refine ⟨by omega, fun other hother => ?_⟩
  have hless := hrank slot other ⟨block, w, hblock, hw, hother⟩
  omega

/-- Two heaps agree on a set of values that is closed under nesting. -/
structure Agree (h h' : Heap) (among : Value → Prop) : Prop where
  alike : ∀ v slot, among v → v.slot? = some slot →
    ∃ b b', h.block? slot = some b ∧ h'.block? slot = some b' ∧ b.Alike b'
  closed : ∀ v slot b w, among v → v.slot? = some slot → h.block? slot = some b →
    w ∈ b.parts → among w

/-- Heaps that agree on a value agree on its number. -/
theorem Agree.number?_eq {h h' : Heap} {among : Value → Prop} (hagree : h.Agree h' among)
    {v : Value} (hv : among v) : h'.number? v = h.number? v := by
  rw [number?, number?]
  cases hview : v.view with
  | error => rfl
  | ok view =>
      cases view with
      | ref slot =>
          obtain ⟨b, b', hb, hb', halike⟩ := hagree.alike v slot hv (Value.slot?_of_view_ref hview)
          simp only [body_eq hb, body_eq hb', bind, Except.bind]
          cases hfrozen : b.header.kind.isFrozen with
          | true => rw [halike.body_eq hfrozen]
          | false =>
              -- neither payload is a number
              have hnot {body : Body} (hfits : body.fits b.header.kind = true) :
                  (∀ n, body ≠ .integer n) ∧ ∀ x, body ≠ .float x := by
                constructor <;> rintro _ rfl <;>
                  simp only [Body.fits, beq_iff_eq] at hfits <;>
                  simp [hfits, Kind.isFrozen, Kind.isMutable] at hfrozen
              obtain ⟨hint, hfloat⟩ := hnot halike.fits
              obtain ⟨hint', hfloat'⟩ := hnot halike.fits'
              cases hbody : b.body <;> cases hbody' : b'.body <;>
                first | rfl | exact absurd hbody (hint _) | exact absurd hbody (hfloat _)
                      | exact absurd hbody' (hint' _) | exact absurd hbody' (hfloat' _)
      | _ => rfl

/-! ## Hashing -/

section Hashing

variable [Digest]

def numberHash (n : Number) : UInt64 :=
  match n.exactInt? with
  | some i => Digest.int i
  | none => Digest.word n.toBinary64.bits

/-- The hash of a block that is no number, from the hashes of its parts. -/
def blockHash (hashPart : Value → Except Stop UInt64) (key : Value) (block : Block) :
    Except Stop UInt64 :=
  if block.header.kind.isHashable then
    match block.body with
    | .bytes seq => .ok (Digest.bytes seq.toList)
    | .shorts seq => .ok (Digest.shorts seq.toList)
    | .objects seq =>
      seq.toList.foldlM (fun acc item => do return Digest.pair acc (← hashPart item))
        (Digest.count seq.len)
    | .hash table =>
      .ok (table.toList.foldl (fun acc (hash, _, _) => acc ^^^ hash) (Digest.count table.size))
    | _ => .ok (Digest.word key.word)
  else refuse (.unhashable block.header.kind)

/-- One step of the hash: numbers are hashed by value, other inline words as they are, and
references by their block. -/
theorem hashWithin_succ (h : Heap) (depth : Nat) (key : Value) :
    h.hashWithin (depth + 1) key =
      match h.number? key with
      | .error fault => .error (.fault fault)
      | .ok (some n) => .ok (numberHash n)
      | .ok none =>
        match key.slot? with
        | none => .ok (Digest.word key.word)
        | some slot =>
          match h.block? slot with
          | none => .error (.fault (.dangling slot))
          | some block => blockHash (h.hashWithin depth) key block := by
  rw [hashWithin]
  cases h.number? key with
  | error => rfl
  | ok n =>
      cases n with
      | some n =>
          simp only [liftM_ok_bind, numberHash]
          cases n.exactInt? <;> rfl
      | none =>
          cases hslot : key.slot? with
          | none => rfl
          | some slot =>
              cases hblock : h.block? slot with
              | none =>
                  simp only [Heap.block, hblock]
                  rfl
              | some block =>
                  simp only [liftM_ok_bind, block_eq hblock, hblock, blockHash]
                  cases hkind : block.header.kind.isHashable with
                  | false => rfl
                  | true => cases block.body <;> rfl

/-- Records are hashed by identity. -/
theorem blockHash_record {f : Value → Except Stop UInt64} {key : Value} {block : Block}
    (hkind : block.header.kind.isHashable = true) (hbody : block.body.IsRecord) :
    blockHash f key block = .ok (Digest.word key.word) := by
  rw [blockHash, if_pos hkind]
  cases hcase : block.body <;> first | rfl | (rw [hcase] at hbody; exact hbody.elim)

/-- The hash of a block that was left alone depends on the hashes of its parts. -/
theorem blockHash_alike {b b' : Block} (halike : b.Alike b') (key : Value)
    {f f' : Value → Except Stop UInt64} (hparts : ∀ v ∈ b.parts, f' v = f v) :
    blockHash f' key b' = blockHash f key b := by
  cases hkind : b.header.kind.isHashable with
  | false =>
      rw [blockHash, blockHash, halike.kind_eq, hkind]
      rfl
  | true =>
      cases hfrozen : b.header.kind.isFrozen with
      | false =>
          have hshape := Kind.shape_of_hashable hkind hfrozen
          have hkind' : b'.header.kind.isHashable = true := by rwa [halike.kind_eq]
          rw [blockHash_record hkind (Body.isRecord_of_fits halike.fits hshape),
            blockHash_record hkind' (Body.isRecord_of_fits halike.fits' hshape)]
      | true =>
          rw [blockHash, blockHash, halike.kind_eq, halike.body_eq hfrozen, hkind]
          cases hbody : b.body with
          | objects seq =>
              have htuple := Block.kind_of_objects halike.fits hbody hkind
              refine foldlM_congr (fun acc item hitem => ?_) _
              rw [hparts item (by rw [Block.parts_tuple htuple, hbody]; exact hitem)]
          | _ => rfl

/-- Heaps that agree on a value give it the same hash, at every sufficient depth. -/
theorem hashWithin_agree {h h' : Heap} {among : Value → Prop} (hagree : h.Agree h' among)
    {rank : Nat → Nat} (hrank : h.RankedBy rank) {depth depth' : Nat} {v : Value} (hv : among v)
    (hdepth : Reaches rank depth v) (hdepth' : Reaches rank depth' v) :
    h'.hashWithin depth' v = h.hashWithin depth v := by
  -- parts have a smaller rank, so both depths suffice for them as well
  induction depth generalizing depth' v with
  | zero => exact absurd hdepth.1 (Nat.lt_irrefl 0)
  | succ depth ih =>
      obtain ⟨pred, rfl⟩ := Nat.exists_eq_succ_of_ne_zero (Nat.ne_of_gt hdepth'.1)
      rw [hashWithin_succ, hashWithin_succ, hagree.number?_eq hv]
      cases h.number? v with
      | error => rfl
      | ok n =>
          cases n with
          | some => rfl
          | none =>
              cases hslot : v.slot? with
              | none => rfl
              | some slot =>
                  obtain ⟨b, b', hb, hb', halike⟩ := hagree.alike v slot hv hslot
                  simp only [hb, hb']
                  refine blockHash_alike halike v fun w hw => ?_
                  exact ih (hagree.closed v slot b w hv hslot hb hw)
                    (hdepth.part hrank hslot hb hw) (hdepth'.part hrank hslot hb hw)

/-- Heaps that agree on a value hash it alike, if the walk over it ends. -/
theorem Agree.hashOf_eq {h h' : Heap} {among : Value → Prop} (hagree : h.Agree h' among)
    {rank : Nat → Nat} (hrank : h.RankedBy rank) (hsize : h.slots.size ≤ h'.slots.size) {v : Value}
    (hv : among v) (hdepth : Reaches rank (h.slots.size + 1) v) : h'.hashOf v = h.hashOf v := by
  exact hashWithin_agree hagree hrank hv hdepth (hdepth.mono (Nat.succ_le_succ hsize))

/-- Whether the entries of a table are under the hashes of their keys, which all differ. -/
structure Keyed (h : Heap) (table : ProbeTable) : Prop where
  hashed : ∀ hash key value, (hash, key, value) ∈ table.toList → h.hashOf key = .ok hash
  distinct : (table.toList.map fun entry => h.fingerprint entry.2.1).Nodup

/-- What holds of the contents of a heap between operations. -/
structure Coherent (admits : Value → Prop) (h : Heap) : Prop where
  fits : ∀ slot block, h.block? slot = some block → block.body.fits block.header.kind = true
  valid : ∀ slot block, h.block? slot = some block → block.body.Valid
  edges_usable : ∀ slot block, h.block? slot = some block →
    ∀ v ∈ block.body.edges, h.Usable admits v
  registers_usable : ∀ v ∈ h.registers, h.Usable admits v
  keyed : ∀ slot block table, h.block? slot = some block → block.body = .hash table →
    h.Keyed table
  settled : ∃ rank, h.SettledBy rank

section Coherent

variable {admits : Value → Prop} {h : Heap}

theorem Coherent.parts_usable (hc : h.Coherent admits) {slot : Nat} {block : Block}
    (hblock : h.block? slot = some block) {v : Value} (hv : v ∈ block.parts) :
    h.Usable admits v :=
  hc.edges_usable slot block hblock v (Block.mem_edges_of_mem_parts hv)

theorem Coherent.agree_self (hc : h.Coherent admits) : h.Agree h (h.Usable admits) := by
  refine ⟨fun v slot hv hslot => ?_, fun v slot b w _ _ hb hw => hc.parts_usable hb hw⟩
  obtain ⟨b, hb⟩ := hv.block? hslot
  exact ⟨b, b, hb, hb, Block.Alike.refl (hc.fits slot b hb)⟩

/-- In a coherent heap no block refers to itself for good, not even through others. -/
theorem Coherent.exists_settled_rank (hc : h.Coherent admits) :
    ∃ rank, h.SettledBy rank ∧
      ∀ v, h.Usable admits v → Reaches rank (h.slots.size + 1) v := by
  obtain ⟨rank, hrank⟩ := hc.settled
  have hkept : ∀ a b, h.Keeps a b → b < h.slots.size := by
    rintro a b ⟨block, v, hblock, hv, hslot⟩
    obtain ⟨kept, hkept⟩ :=
      (hc.edges_usable a block hblock v (Block.mem_edges_of_mem_fixed hv)).block? hslot
    exact lt_size_of_block? hkept
  obtain ⟨rank', hrank', hlt⟩ := exists_rank_lt hrank hkept
  refine ⟨rank', hrank', fun v hv => ⟨Nat.succ_pos _, fun slot hslot => ?_⟩⟩
  obtain ⟨block, hblock⟩ := hv.block? hslot
  have hless := hlt slot (lt_size_of_block? hblock)
  omega

/-- In a coherent heap there is a rank by which every walk ends in time. -/
theorem Coherent.exists_rank (hc : h.Coherent admits) :
    ∃ rank, h.RankedBy rank ∧
      ∀ v, h.Usable admits v → Reaches rank (h.slots.size + 1) v := by
  obtain ⟨rank, hrank, hreaches⟩ := hc.exists_settled_rank
  exact ⟨rank, hrank.rankedBy, hreaches⟩

/-- The hash of a block is given if those of its parts are. -/
theorem blockHash_gives {f : Value → Except Stop UInt64} {b : Block}
    (hfits : b.body.fits b.header.kind = true) (key : Value)
    (hparts : ∀ v ∈ b.parts, Gives admits (f v) fun _ => True) :
    Gives admits (blockHash f key b) fun _ => True := by
  rw [blockHash]
  split
  next hkind =>
    cases hbody : b.body with
    | objects seq =>
        have htuple := Block.kind_of_objects hfits hbody hkind
        refine Gives.foldlM (fun acc item hitem => ?_) _
        have hitem' : item ∈ b.parts := by
          rw [Block.parts_tuple htuple, hbody]
          exact hitem
        exact Gives.bind (hparts item hitem') fun _ _ => trivial
    | _ => exact trivial
  next => exact Gives.refuse ..

/-- By induction on the depth: the hash of a usable value is given, if the walk over it ends. -/
theorem hashWithin_gives (hc : h.Coherent admits) {rank : Nat → Nat} (hrank : h.RankedBy rank)
    {depth : Nat} {v : Value} (hv : h.Usable admits v) (hdepth : Reaches rank depth v) :
    Gives admits (h.hashWithin depth v) fun _ => True := by
  induction depth generalizing v with
  | zero => exact absurd hdepth.1 (Nat.lt_irrefl 0)
  | succ depth ih =>
      have hnumber := number?_looks hv
      rw [hashWithin_succ]
      cases hcase : h.number? v with
      | error fault => rw [hcase] at hnumber; exact hnumber
      | ok n =>
          cases n with
          | some n => exact trivial
          | none =>
              cases hslot : v.slot? with
              | none => exact trivial
              | some slot =>
                  obtain ⟨b, hb⟩ := hv.block? hslot
                  simp only [hb]
                  refine blockHash_gives (hc.fits slot b hb) v fun w hw => ?_
                  exact ih (hc.parts_usable hb hw) (hdepth.part hrank hslot hb hw)

/-- The hash of a key is given or refused. -/
theorem hashOf_gives (hc : h.Coherent admits) {v : Value} (hv : h.Usable admits v) :
    Gives admits (h.hashOf v) fun hash => h.hashOf v = .ok hash := by
  obtain ⟨rank, hrank, hdepth⟩ := hc.exists_rank
  exact (hashWithin_gives hc hrank hv (hdepth v hv)).with_eq.mono fun _ heq => heq.2

/-! ## Keys -/

/-- Whether a value is a key. -/
def Keyable (h : Heap) (v : Value) : Prop := ∃ hash, h.hashOf v = .ok hash

omit [Digest] in
theorem number?_ref {v : Value} {slot : Nat} {block : Block} (hslot : v.slot? = some slot)
    (hblock : h.block? slot = some block) :
    h.number? v = .ok (match block.body with
      | .integer n => some (.int n)
      | .float x => some (.float x)
      | _ => none) := by
  have hview : v.view = .ok (.ref slot) := by rw [Value.view, hslot]
  simp only [number?, hview, body_eq hblock, bind, Except.bind]
  cases block.body <;> rfl

/-- Whether a key is a number can be told. -/
theorem Keyable.exists_number? {v : Value} (hv : h.Keyable v) : ∃ n, h.number? v = .ok n := by
  obtain ⟨hash, hhash⟩ := hv
  rw [hashOf, hashWithin_succ] at hhash
  cases hcase : h.number? v with
  | error fault => rw [hcase] at hhash; cases hhash
  | ok n => exact ⟨n, rfl⟩

/-- What is known of the block of a key: it is a number, or it was hashed from its parts. -/
theorem Keyable.blockHash_eq {v : Value} {slot : Nat} {block : Block} (hv : h.Keyable v)
    (hslot : v.slot? = some slot) (hblock : h.block? slot = some block) :
    (∃ n, block.body = .integer n) ∨ (∃ x, block.body = .float x) ∨
      ∃ hash, blockHash (h.hashWithin h.slots.size) v block = .ok hash := by
  obtain ⟨hash, hhash⟩ := hv
  rw [hashOf, hashWithin_succ, number?_ref hslot hblock, hslot] at hhash
  simp only [hblock] at hhash
  cases hbody : block.body with
  | integer n => exact Or.inl ⟨n, rfl⟩
  | float x => exact Or.inr (Or.inl ⟨x, rfl⟩)
  | _ =>
      rw [hbody] at hhash
      exact Or.inr (Or.inr ⟨hash, hhash⟩)

/-- A key that refers to a block is of a hashable kind. -/
theorem Keyable.isHashable {v : Value} {slot : Nat} {block : Block} (hv : h.Keyable v)
    (hslot : v.slot? = some slot) (hblock : h.block? slot = some block)
    (hfits : block.body.fits block.header.kind = true) :
    block.header.kind.isHashable = true := by
  rcases hv.blockHash_eq hslot hblock with ⟨n, hbody⟩ | ⟨x, hbody⟩ | ⟨hash, hhash⟩
  · rw [hbody] at hfits
    simp only [Body.fits, beq_iff_eq] at hfits
    rw [hfits]
    rfl
  · rw [hbody] at hfits
    simp only [Body.fits, beq_iff_eq] at hfits
    rw [hfits]
    rfl
  · rw [blockHash] at hhash
    split at hhash
    · assumption
    · cases hhash

omit [Digest] in
/-- A fold that ends well has found a result for each item. -/
theorem exists_ok_of_foldlM {α β ε : Type} {f : β → Except ε α} {g : α → α → α} {items : List β}
    {start result : α}
    (h : items.foldlM (fun acc item => do return g acc (← f item)) start = .ok result) :
    ∀ item ∈ items, ∃ a, f item = .ok a := by
  induction items generalizing start with
  | nil => exact fun _ hmem => nomatch hmem
  | cons head rest ih =>
      rw [List.foldlM_cons] at h
      cases hhead : f head with
      | error e => rw [hhead] at h; cases h
      | ok a =>
          rw [hhead] at h
          intro item hitem
          rcases List.mem_cons.mp hitem with rfl | hmem
          · exact ⟨a, hhead⟩
          · exact ih h item hmem

/-- The parts of a key are keys. -/
theorem Coherent.keyable_part (hc : h.Coherent admits) {v w : Value} {slot : Nat} {block : Block}
    (hv : h.Keyable v) (hslot : v.slot? = some slot) (hblock : h.block? slot = some block)
    (hw : w ∈ block.parts) : h.Keyable w := by
  have husable := hc.parts_usable hblock hw
  have hfits := hc.fits slot block hblock
  have hkind := hv.isHashable hslot hblock hfits
  have hmem := Block.mem_edges_of_mem_parts hw
  cases hbody : block.body with
  | objects seq =>
      rw [hbody] at hmem
      rcases hv.blockHash_eq hslot hblock with ⟨n, hn⟩ | ⟨x, hx⟩ | ⟨hash, hhash⟩
      · rw [hbody] at hn; cases hn
      · rw [hbody] at hx; cases hx
      rw [blockHash, if_pos hkind, hbody] at hhash
      obtain ⟨part, hpart⟩ := exists_ok_of_foldlM hhash w hmem
      -- the part was hashed at a smaller depth, which makes no difference
      obtain ⟨rank, hrank, hdepth⟩ := hc.exists_rank
      have hv' : h.Usable admits v := usable_of_slot? hslot hblock
      refine ⟨part, ?_⟩
      rw [← hpart]
      exact hashWithin_agree hc.agree_self hrank husable
        ((hdepth v hv').part hrank hslot hblock hw) (hdepth w husable)
  | hash table =>
      rw [hbody] at hmem
      obtain ⟨hash, key, value, hentry, hkey⟩ := ProbeTable.mem_edges.mp hmem
      have hset := Block.kind_of_hash hfits hbody hkind
      rw [hbody, hset] at hfits
      simp only [Body.fits, Bool.not_eq_true'] at hfits
      rcases hkey with rfl | ⟨hkeeps, _⟩
      · exact ⟨hash, (hc.keyed slot block table hblock hbody).hashed hash _ value hentry⟩
      · rw [hfits] at hkeeps
        cases hkeeps
  | _ =>
      rw [Block.parts] at hw
      split at hw
      next hkinds => rcases hkinds with hk | hk <;> simp [hbody, hk, Body.fits, Kind.shape] at hfits
      next => cases hw

end Coherent

end Hashing

end Heap

end ObjectHeap
