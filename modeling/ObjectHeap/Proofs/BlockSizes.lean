import ObjectHeap.Proofs.SequenceRuns

/-! # Sizes worked out beforehand

Where a block is sized by a count, its size is worked out before the payload is built, with every
step checked, and the request is refused if the arena is smaller. The payload has its size worked
out once more when it is built, in 64-bit arithmetic that is not checked. Both are the bytes of
header and payload, rounded up to a multiple of eight. A request that is let through never
overflows the second time, and one that is turned away leaves the heap as it was.
-/

namespace ObjectHeap

/-! ## Arithmetic of sizes -/

namespace Layout

/-- Rounding up gives the least multiple of 8 that is large enough. -/
theorem isLeast_roundUp (n : Nat) : IsLeast { m | 8 ∣ m ∧ n ≤ m } (roundUp n) := by
  unfold roundUp
  refine ⟨⟨Nat.dvd_mul_left .., by omega⟩, ?_⟩
  rintro m ⟨⟨k, rfl⟩, hle⟩
  omega

/-- The bytes of a fixed part and of some cells, in 64-bit arithmetic. -/
def cells64 (fixed unit count : Nat) : Except Fault Nat := do
  within span64 (fixed + (← within span64 (unit * count)))

/-- The size of counted cells, computed in 64 bits, is the size if that fits. -/
theorem cells64_eq (fixed unit count : Nat) :
    cells64 fixed unit count = within span64 (fixed + unit * count) := by
  by_cases hlt : unit * count < span64
  · rw [cells64, within, if_pos hlt]
    rfl
  · have hsum : ¬ fixed + unit * count < span64 := by omega
    rw [cells64, within, if_neg hlt, within, if_neg hsum]
    rfl

end Layout

namespace Body

/-- The bytes after the header, in 64-bit arithmetic. -/
def payloadSize64 : Body → Except Fault Nat
  | .bytes seq => Layout.cells64 Layout.countsSize 1 seq.capacity
  | .shorts seq => Layout.cells64 Layout.countsSize 2 seq.capacity
  | .objects seq => Layout.cells64 Layout.countsSize Layout.wordSize seq.capacity
  | .hash table =>
    Layout.cells64 Layout.countsSize (Layout.entrySize table.keepsValues) table.capacity
  | .frame f => do
    let cells ← within span64 (f.locals.size + f.stack.capacity)
    Layout.cells64 Layout.frameSize Layout.wordSize cells
  | body => .ok body.payloadSize

/-- The bytes of the whole block, in 64-bit arithmetic. -/
def blockSize64 (body : Body) : Except Fault Nat := do
  Layout.alignUp (← within span64 (Layout.headerSize + (← body.payloadSize64)))

/-- The size of a payload, computed in 64 bits, is the size if that fits. -/
theorem payloadSize64_eq (body : Body) : body.payloadSize64 = within span64 body.payloadSize := by
  cases body with
  | bytes seq =>
      rw [payloadSize64, Layout.cells64_eq, Nat.one_mul]
      rfl
  | shorts seq => exact Layout.cells64_eq ..
  | objects seq => exact Layout.cells64_eq ..
  | hash table => exact Layout.cells64_eq ..
  | frame f =>
      rw [payloadSize64, payloadSize]
      by_cases hlt : f.locals.size + f.stack.capacity < span64
      · rw [within, if_pos hlt]
        exact Layout.cells64_eq ..
      · have hsum : ¬ Layout.frameSize +
            Layout.wordSize * (f.locals.size + f.stack.capacity) < span64 := by
          unfold Layout.wordSize
          omega
        rw [within, if_neg hlt, within, if_neg hsum]
        rfl
  | _ => rfl

/-- The arithmetic does not overflow if there is room for one more word above the block. -/
theorem blockSize64_eq {body : Body}
    (hroom : Layout.headerSize + body.payloadSize + 8 < span64) :
    body.blockSize64 = .ok body.blockSize := by
  have hpayload : body.payloadSize64 = .ok body.payloadSize := by
    rw [payloadSize64_eq]
    exact if_pos (by omega)
  have hsum : within span64 (Layout.headerSize + body.payloadSize) =
      .ok (Layout.headerSize + body.payloadSize) := if_pos (by omega)
  have hpast : within span64 (Layout.headerSize + body.payloadSize + 8) =
      .ok (Layout.headerSize + body.payloadSize + 8) := if_pos hroom
  simp only [blockSize64, Layout.alignUp, hpayload, hsum, hpast, bind, Except.bind]
  rfl

end Body

/-! ## What a block is sized by -/

/-- The count that a block is sized by. -/
inductive Sizing where
  | sequence (kind : Kind) (capacity : Nat)
  | table (keepsValues : Bool) (slots : Nat)
  | frame (locals stack : Nat)

namespace Sizing

/-- The bytes of an element of a sequence. -/
def unit (kind : Kind) : Nat :=
  match kind.shape with
  | .byteSequence => 1
  | .shortSequence => 2
  | _ => 8

def bytes : Sizing → Nat
  | .sequence kind capacity => 16 + unit kind * capacity
  | .table keepsValues slots => 16 + (if keepsValues then 24 else 16) * slots
  | .frame locals stack => 40 + 8 * (locals + stack)

def size (s : Sizing) : Nat := Layout.roundUp s.bytes

/-- The bytes of the block, if 64 bits can count them. -/
def size? (s : Sizing) : Option Nat := if s.size < span64 then some s.size else none

/-- The size that is worked out before the payload is built. -/
def precheck : Sizing → Except Fault (Option Nat)
  | .sequence kind capacity => Layout.sequenceBlock? kind capacity
  | .table keepsValues slots => .ok (Layout.hashBlock? keepsValues slots)
  | .frame locals stack => .ok (Layout.frameBlock? locals stack)

/-- Only the kinds of sequences are sized as sequences. -/
def Proper : Sizing → Prop
  | .sequence kind _ => kind.isSequence = true
  | _ => True

/-- Whether a payload has the count. -/
def Built : Sizing → Body → Prop
  | .sequence kind capacity, body => body.fits kind = true ∧ body.seqCapacity = .ok capacity
  | .table keepsValues slots, body =>
    ∃ t : ProbeTable, body = .hash t ∧ t.keepsValues = keepsValues ∧ t.capacity = slots
  | .frame locals stack, body =>
    ∃ f : FrameBody, body = .frame f ∧ f.locals.size = locals ∧ f.stack.capacity = stack

variable {s : Sizing} {body : Body}

/-- A payload that was built to a sizing takes up as many bytes as the sizing says. -/
theorem Built.bytes_eq (hbuilt : s.Built body) :
    Layout.headerSize + body.payloadSize = s.bytes := by
  cases s with
  | sequence kind capacity =>
      obtain ⟨hfits, hcapacity⟩ := hbuilt
      cases body with
      | bytes seq | shorts seq | objects seq =>
          cases hcapacity
          simp only [Body.fits, beq_iff_eq] at hfits
          simp only [bytes, unit, hfits, Body.payloadSize, Layout.headerSize, Layout.countsSize,
            Layout.wordSize]
          omega
      | _ => cases hcapacity
  | table keepsValues slots =>
      obtain ⟨t, rfl, rfl, rfl⟩ := hbuilt
      simp only [bytes, Body.payloadSize, Layout.headerSize, Layout.countsSize, Layout.entrySize]
      omega
  | frame locals stack =>
      obtain ⟨f, rfl, rfl, rfl⟩ := hbuilt
      simp only [bytes, Body.payloadSize, Layout.headerSize, Layout.frameSize, Layout.wordSize]
      omega

theorem Built.blockSize_eq (hbuilt : s.Built body) : body.blockSize = s.size :=
  congrArg Layout.roundUp hbuilt.bytes_eq

/-- The block size computed in 64 bits is the one that the sizing gives. -/
theorem Built.blockSize64_eq (hbuilt : s.Built body) (hroom : s.bytes + 8 < span64) :
    body.blockSize64 = .ok s.size := by
  rw [Body.blockSize64_eq (by rw [hbuilt.bytes_eq]; exact hroom), hbuilt.blockSize_eq]

/-- A sequence takes no more room for fewer cells. -/
theorem size_sequence_mono (kind : Kind) {capacity current : Nat} (hle : capacity ≤ current) :
    (sequence kind capacity).size ≤ (sequence kind current).size := by
  have hcells := Nat.mul_le_mul_left (unit kind) hle
  simp only [size, bytes, Layout.roundUp]
  omega

theorem bytes_le_size (s : Sizing) : s.bytes ≤ s.size := (Layout.isLeast_roundUp _).1.2

/-- Each check works out a counted size, of the bytes that the count takes. -/
theorem precheck_eq (hproper : s.Proper) :
    s.precheck = .ok s.size? := by
  have hcounted {fixed count unit : Nat}
      (hbytes : Layout.headerSize + (fixed + unit * count) = s.bytes) :
      Layout.countedBlock? fixed count unit = s.size? := by
    rw [Layout.countedBlock?_eq, Layout.block, hbytes]
    rfl
  cases s with
  | sequence kind capacity =>
      have hproper : kind.isSequence = true := hproper
      cases hshape : kind.shape with
      | byteSequence | shortSequence | objectSequence =>
          simp only [precheck, Layout.sequenceBlock?, Layout.elementSize?, hshape]
          refine congrArg Except.ok (hcounted ?_)
          simp only [bytes, unit, hshape, Layout.headerSize, Layout.countsSize, Layout.wordSize]
          omega
      | _ => simp [Kind.isSequence, hshape] at hproper
  | table keepsValues slots =>
      refine congrArg Except.ok (hcounted ?_)
      simp only [bytes, Layout.headerSize, Layout.countsSize, Layout.entrySize]
      omega
  | frame locals stack =>
      have hbytes : Layout.headerSize + (Layout.frameSize + Layout.wordSize * (locals + stack)) =
          (Sizing.frame locals stack).bytes := by
        simp only [bytes, Layout.headerSize, Layout.frameSize, Layout.wordSize]
        omega
      refine congrArg Except.ok ?_
      rw [Layout.frameBlock?]
      split
      next => exact hcounted hbytes
      next hover =>
        have hle := bytes_le_size (.frame locals stack)
        simp only [bytes] at hle
        exact (if_neg (by omega)).symm

/-- A table built with a power of two of slots has the size of that many. -/
theorem built_withCapacity {slots : Nat} (hpow : slots.isPowerOfTwo) (hlt : slots < span64)
    (keepsValues : Bool) : ∃ t, ProbeTable.withCapacity slots keepsValues = .ok t ∧
      (Sizing.table keepsValues slots).Built (.hash t) :=
  ⟨_, ProbeTable.withCapacity_eq hpow hlt keepsValues, _, rfl, rfl, ProbeTable.capacity_blank ..⟩

end Sizing

/-! ## Requests -/

/-- What the block of a new object is sized by. No size at all stands for a table that has more
slots than 64 bits can count. -/
inductive Operation.Sized (h : Heap) : Operation → Option Sizing → Prop where
  | sequence {kind : Kind} {len : Nat} (hkind : kind.isSequence = true) :
    Sized h (.newSequence kind len) (some (.sequence kind len))
  | buffer {capacity : Nat} : Sized h (.newBuffer capacity) (some (.sequence .buffer capacity))
  | sysObj {size : Nat} : Sized h (.newSysObj size) (some (.sequence .sysObj size))
  | dict {hint : Nat} : Sized h (.newDict hint)
    ((ProbeTable.capacityFor? hint h.settings.loadFactor h.settings.minHashCapacity).map
      (.table true))
  | set {kind : Kind} {hint : Nat} (hkind : kind = .set ∨ kind = .frozenSet) :
    Sized h (.newSet kind hint)
      ((ProbeTable.capacityFor? hint h.settings.loadFactor h.settings.minHashCapacity).map
        (.table false))
  | frame {parent function module : Value} {locals stack : Nat} :
    Sized h (.newFrame parent function module locals stack) (some (.frame locals stack))

namespace Heap

variable {admits : Value → Prop} {h : Heap}

/-- The refusal of a request for too large a block, which names the size up to the largest number
of 64 bits. -/
def exceeded (h : Heap) (asked : Option Sizing) : Refusal :=
  h.outOfMemory (asked.elim 18446744073709551615 fun s => min s.size 18446744073709551615)

/-- A size over that of the heap is refused, with what was asked for. -/
theorem checkSize_exceeded {asked : Option Sizing}
    (hover : ∀ s ∈ asked, h.settings.heapSize < s.size) :
    h.checkSize (asked.bind Sizing.size?) = .error (.refused (h.exceeded asked)) := by
  cases asked with
  | none => rfl
  | some s =>
      have hlt := hover s rfl
      simp only [Option.bind_some, Sizing.size?, exceeded, Option.elim_some]
      split
      next hspan =>
        rw [checkSize, if_neg (by omega), Nat.min_eq_left (by unfold span64 at hspan; omega)]
        rfl
      next hspan =>
        rw [checkSize, Nat.min_eq_right (by unfold span64 at hspan; omega)]
        rfl

/-- A size within that of the heap passes the check. -/
theorem checkSize_admitted (hc : h.Consistent 0) {s : Sizing}
    (hle : s.size ≤ h.settings.heapSize) : h.checkSize s.size? = .ok s.size := by
  have hlt := hc.heapSize_lt
  unfold span32 at hlt
  rw [Sizing.size?, if_pos (by unfold span64; omega)]
  exact if_pos hle

theorem blockSize64_admitted (hc : h.Consistent 0) {s : Sizing} {body : Body}
    (hbuilt : s.Built body) (hle : s.size ≤ h.settings.heapSize) :
    body.blockSize64 = .ok s.size := by
  have hbytes := s.bytes_le_size
  have hlt := hc.heapSize_lt
  exact hbuilt.blockSize64_eq (by unfold span32 at hlt; unfold span64; omega)

theorem checkSequence_eq {kind : Kind} (hkind : kind.isSequence = true) (capacity : Nat) :
    h.checkSequence kind capacity = h.checkSize (Sizing.sequence kind capacity).size? := by
  have hblock : Layout.sequenceBlock? kind capacity = .ok _ :=
    Sizing.precheck_eq (s := .sequence kind capacity) hkind
  rw [checkSequence, hblock]
  rfl

/-- Whether a step checks a size and then makes a block of that size. -/
def Makes (h : Heap) (roots : List Value) (asked : Option Sizing) (step : HeapM Value) : Prop :=
  ∃ kind body, (∀ s ∈ asked, s.Built body) ∧ step h = (do
    let _ ← h.checkSize (asked.bind Sizing.size?)
    allocate roots kind body : HeapM Value) h

variable {roots : List Value} {asked : Option Sizing} {step : HeapM Value}

/-- What is larger than the heap is refused, and nothing changes. -/
theorem Makes.exceeded (hmakes : h.Makes roots asked step)
    (hover : ∀ s ∈ asked, h.settings.heapSize < s.size) :
    step h = .error (.refused (h.exceeded asked)) h := by
  obtain ⟨kind, body, _, hrun⟩ := hmakes
  rw [hrun, checkSize_exceeded hover]
  rfl

/-- What fits in the heap is built and allocated. -/
theorem Makes.admitted {s : Sizing} (hc : h.Consistent 0) (hmakes : h.Makes roots (some s) step)
    (hle : s.size ≤ h.settings.heapSize) :
    ∃ kind body, s.Built body ∧ step h = allocate roots kind body h := by
  obtain ⟨kind, body, hbuilt, hrun⟩ := hmakes
  refine ⟨kind, body, hbuilt s rfl, ?_⟩
  rw [hrun, Option.bind_some, checkSize_admitted hc hle]
  rfl

/-- A sequence is checked for the capacity it is built with. -/
theorem makes_sequence {kind : Kind} {capacity : Nat} {body : Body}
    (hkind : kind.isSequence = true) (hfits : body.fits kind = true)
    (hcapacity : body.seqCapacity = .ok capacity) :
    h.Makes roots (some (.sequence kind capacity)) (do
      let _ ← (← get).checkSequence kind capacity
      allocate roots kind body) := by
  refine ⟨kind, body, ?_, ?_⟩
  · rintro s ⟨⟩
    exact ⟨hfits, hcapacity⟩
  · rw [Option.bind_some, ← checkSequence_eq hkind]
    rfl

theorem capacity_emptyOrZeroed {α : Type} [Inhabited α] (kind : Kind) (len : Nat) :
    (emptyOrZeroed kind len : BoundedSeq α).capacity = len := by
  unfold emptyOrZeroed
  split
  next => exact BoundedSeq.capacity_withCapacity len
  next => exact BoundedSeq.capacity_zeroed len

theorem newSequence_makes {kind : Kind} (hkind : kind.isSequence = true) (len : Nat) :
    h.Makes roots (some (.sequence kind len)) (newSequence roots kind len) := by
  unfold newSequence
  simp only [hkind, Bool.not_true, Bool.false_eq_true, if_false]
  cases hshape : kind.shape with
  | byteSequence | shortSequence | objectSequence =>
      refine makes_sequence hkind ?_ (congrArg _ (capacity_emptyOrZeroed kind len))
      rw [Body.fits, hshape]
      rfl
  | _ => simp [Kind.isSequence, hshape] at hkind

/-- A table gets as many slots as its hint asks for, if they can be counted. -/
theorem newTable_makes (hc : h.Consistent 0) (kind : Kind) (hint : Nat) (keepsValues : Bool) :
    h.Makes roots ((ProbeTable.capacityFor? hint h.settings.loadFactor
        h.settings.minHashCapacity).map (.table keepsValues)) (do
      let slots ← (← get).hashCapacity hint keepsValues
      allocate roots kind (.hash (← ProbeTable.withCapacity slots keepsValues))) := by
  cases hslots : ProbeTable.capacityFor? hint h.settings.loadFactor
      h.settings.minHashCapacity with
  | none =>
      -- the check fails, so that any payload will do
      refine ⟨kind, .integer 0, by simp, ?_⟩
      change ((liftM (h.hashCapacity hint keepsValues) : HeapM Nat) >>= _) h = _
      rw [hashCapacity, hslots]
      rfl
  | some slots =>
      have hload := Settings.fraction_of_flaw? hc.settings_ok
      obtain ⟨hpow, hlt, _⟩ := ProbeTable.capacityFor?_spec hload hslots
      have hblock : Layout.hashBlock? keepsValues slots =
          (Sizing.table keepsValues slots).size? :=
        Except.ok.inj (Sizing.precheck_eq (s := .table keepsValues slots) trivial)
      obtain ⟨t, ht, hbuilt⟩ := Sizing.built_withCapacity hpow hlt keepsValues
      refine ⟨kind, .hash t, ?_, ?_⟩
      · rintro s ⟨⟩
        exact hbuilt
      · change ((liftM (h.hashCapacity hint keepsValues) : HeapM Nat) >>= _) h = _
        rw [hashCapacity, hslots, Option.map_some, Option.bind_some]
        simp only [hblock]
        cases h.checkSize (Sizing.table keepsValues slots).size? with
        | error stop => rfl
        | ok size =>
            change ((liftM (ProbeTable.withCapacity slots keepsValues) :
              HeapM ProbeTable) >>= _) h = _
            rw [ht]
            rfl

theorem newFrame_makes (parent function module : Value) (locals stack : Nat) :
    h.Makes roots (some (.frame locals stack))
      (newFrame roots parent function module locals stack) := by
  have hblock : Layout.frameBlock? locals stack = (Sizing.frame locals stack).size? :=
    Except.ok.inj (Sizing.precheck_eq (s := .frame locals stack) trivial)
  refine ⟨.frame, .frame ⟨parent, function, module, 0, Array.replicate locals Value.nil,
    BoundedSeq.withCapacity stack⟩, ?_, ?_⟩
  · rintro s ⟨⟩
    exact ⟨_, rfl, Array.size_replicate, BoundedSeq.capacity_withCapacity _⟩
  · rw [Option.bind_some, ← hblock]
    rfl

/-! ## Operations -/

theorem map_congr {α β : Type} {x y : HeapM α} (hrun : x h = y h) (f : α → β) :
    (f <$> x) h = (f <$> y) h := by
  change EStateM.map f x h = EStateM.map f y h
  rw [EStateM.map, EStateM.map, hrun]

theorem effect_congr {x y : HeapM Unit} (hrun : x h = y h) :
    Operation.effect x h = Operation.effect y h := by
  change EStateM.bind x _ h = EStateM.bind y _ h
  rw [EStateM.bind, EStateM.bind, hrun]

/-- A sequence that has the cells is left alone. Else it is resized, once its size is checked. -/
theorem seqReserve_run {v : Value} {slot current : Nat} {b : Block} (roots : List Value)
    (hslot : v.slot? = some slot) (hb : h.block? slot = some b)
    (hgrowable : b.header.kind.isGrowable = true) (hcurrent : b.body.seqCapacity = .ok current)
    (capacity : Nat) :
    seqReserve roots v capacity h =
      (if current < capacity then do
        let size ← h.checkSize (Sizing.sequence b.header.kind capacity).size?
        resize roots slot [] size (Body.seqGrow capacity)
      else pure () : HeapM Unit) h := by
  change ((liftM (h.growableSequence v) : HeapM (Nat × Block)) >>= _) h = _
  rw [growableSequence_eq hslot hb hgrowable]
  change ((liftM b.body.seqCapacity : HeapM Nat) >>= _) h = _
  rw [hcurrent, ← checkSequence_eq (Kind.isSequence_of_isGrowable hgrowable)]
  change (if current < capacity then _ else _ : HeapM Unit) h = _
  split
  next => rfl
  next => rfl

section Digests

variable [Digest]

/-- An operation that makes a block of a given size checks that size and then makes the block. -/
theorem perform_sized (hc : h.Consistent 0) (roots : List Value) {op : Operation}
    (hsized : op.Sized h asked) :
    ∃ step, op.perform roots = some <$> step ∧ h.Makes roots asked step := by
  cases hsized with
  | sequence hkind => exact ⟨_, rfl, newSequence_makes hkind _⟩
  | buffer =>
      exact ⟨_, rfl, makes_sequence rfl rfl (congrArg _ (BoundedSeq.capacity_withCapacity _))⟩
  | sysObj => exact ⟨_, rfl, makes_sequence rfl rfl (congrArg _ (BoundedSeq.capacity_zeroed _))⟩
  | dict => exact ⟨_, rfl, newTable_makes hc .dict _ true⟩
  | set hkind =>
      refine ⟨_, rfl, ?_⟩
      rcases hkind with rfl | rfl
      · exact newTable_makes hc .set _ false
      · exact newTable_makes hc .frozenSet _ false
  | frame => exact ⟨_, rfl, newFrame_makes ..⟩

section Reserving

variable {v : Value} {slot current capacity : Nat} {b : Block} (hs : h.Sound admits 0)
  (roots : List Value) (hslot : v.slot? = some slot) (hb : h.block? slot = some b)
  (hgrowable : b.header.kind.isGrowable = true) (hcurrent : b.body.seqCapacity = .ok current)
include hs hslot hb hgrowable hcurrent

/-- Reserving more room than the heap has is refused, and nothing changes. -/
theorem seqReserve_exceeded
    (hover : h.settings.heapSize < (Sizing.sequence b.header.kind capacity).size) :
    seqReserve roots v capacity h =
      .error (.refused (h.exceeded (some (.sequence b.header.kind capacity)))) h := by
  have hmore : current < capacity := by
    by_contra hcells
    -- the block at hand would have the cells, and it is no larger than the arena
    have hbuilt : (Sizing.sequence b.header.kind current).Built b.body :=
      ⟨hs.coherent.fits slot b hb, hcurrent⟩
    have hsize := hs.consistent.blockSize_le hb
    have hmono := Sizing.size_sequence_mono b.header.kind (Nat.le_of_not_lt hcells)
    rw [hbuilt.blockSize_eq] at hsize
    omega
  have hasked : ∀ s ∈ some (Sizing.sequence b.header.kind capacity),
      h.settings.heapSize < s.size := by
    rintro s ⟨⟩
    exact hover
  have hcheck := checkSize_exceeded hasked
  rw [Option.bind_some] at hcheck
  rw [seqReserve_run roots hslot hb hgrowable hcurrent, if_pos hmore, hcheck]
  rfl

/-- Reserving more room than the sequence has, within the heap, is a resize to that room. -/
theorem seqReserve_admitted
    (hle : (Sizing.sequence b.header.kind capacity).size ≤ h.settings.heapSize)
    (hmore : current < capacity) :
    ∃ body, b.body.seqGrow capacity = .ok body ∧
      (Sizing.sequence b.header.kind capacity).Built body ∧
      seqReserve roots v capacity h = resize roots slot []
        (Sizing.sequence b.header.kind capacity).size (Body.seqGrow capacity) h := by
  have hfits := hs.coherent.fits slot b hb
  have hform := Body.isSequence_of_fits hfits (Kind.isSequence_of_isGrowable hgrowable)
  obtain ⟨body, hgrow, hgrows⟩ :=
    Body.seqGrow_spec hform (hs.coherent.valid slot b hb) hcurrent hmore.le
  refine ⟨body, hgrow, ⟨(hgrows.fits_eq _).trans hfits, hgrows.seqCapacity_eq⟩, ?_⟩
  rw [seqReserve_run roots hslot hb hgrowable hcurrent, if_pos hmore,
    checkSize_admitted hs.consistent hle]
  rfl

end Reserving

/-- The size of a counted block is the least multiple of eight that holds its bytes, and the check
made beforehand gives it just if 64 bits can count it. The payload with that count has that size,
in 64-bit arithmetic too as long as one word more can be counted. No operation overflows. One that
asks for a block larger than the arena is refused and leaves the heap as it was, and any other goes
on to a payload with the count. -/
theorem Reachable.counted_sizes (hr : h.Reachable admits) :
    (∀ s : Sizing, s.Proper →
      IsLeast { n | 8 ∣ n ∧ s.bytes ≤ n } s.size ∧
      s.precheck = .ok (if s.size < span64 then some s.size else none) ∧
      ∀ body, s.Built body → body.blockSize = s.size ∧
        (s.bytes + 8 < span64 → body.blockSize64 = .ok s.size)) ∧
    (∀ slots keepsValues, slots.isPowerOfTwo → slots < span64 →
      ∃ t, ProbeTable.withCapacity slots keepsValues = .ok t ∧
        (Sizing.table keepsValues slots).Built (.hash t)) ∧
    (∀ roots (op : Operation), (∀ v ∈ roots ++ op.arguments, h.Usable admits v) →
      ∀ h', op.perform roots h ≠ .error (.fault .arithmetic) h') ∧
    (∀ roots (op : Operation) asked, op.Sized h asked →
      ((∀ s ∈ asked, h.settings.heapSize < s.size) →
        op.perform roots h = .error (.refused (h.exceeded asked)) h) ∧
      ∀ s ∈ asked, s.size ≤ h.settings.heapSize → ∃ kind body, s.Built body ∧
        body.blockSize64 = .ok s.size ∧
        op.perform roots h = (some <$> allocate roots kind body) h) ∧
    ∀ roots (v : Value) slot b capacity s, v.slot? = some slot → h.block? slot = some b →
      b.header.kind.isGrowable = true → s = Sizing.sequence b.header.kind capacity →
      (h.settings.heapSize < s.size →
        (Operation.seqReserve v capacity).perform roots h =
          .error (.refused (h.exceeded (some s))) h) ∧
      (s.size ≤ h.settings.heapSize → ∃ current, b.body.seqCapacity = .ok current ∧
        (capacity ≤ current → (Operation.seqReserve v capacity).perform roots h = .ok none h) ∧
        (current < capacity → ∃ body, b.body.seqGrow capacity = .ok body ∧ s.Built body ∧
          body.blockSize64 = .ok s.size ∧
          (Operation.seqReserve v capacity).perform roots h =
            Operation.effect (resize roots slot [] s.size (Body.seqGrow capacity)) h)) := by
  have hs := hr.sound
  refine ⟨fun s hproper => ⟨Layout.isLeast_roundUp _, Sizing.precheck_eq hproper,
    fun body hbuilt => ⟨hbuilt.blockSize_eq, hbuilt.blockSize64_eq⟩⟩,
    fun slots keepsValues hpow hlt => Sizing.built_withCapacity hpow hlt keepsValues,
    fun roots op hpassed h' hfault => ?_, fun roots op asked hsized => ?_,
    fun roots v slot b capacity s hslot hb hgrowable hsize => ?_⟩
  · obtain ⟨_, _, hshape | hshape⟩ :=
      ((Operation.perform_yields hs op hpassed).excuse hfault).malformed <;> cases hshape
  · obtain ⟨step, hperform, hmakes⟩ := perform_sized hs.consistent roots hsized
    rw [hperform]
    refine ⟨fun hover => ?_, fun s hasked hle => ?_⟩
    · exact map_congr (y := throw _) (hmakes.exceeded hover) some
    · obtain rfl := hasked
      obtain ⟨kind, body, hbuilt, hrun⟩ := hmakes.admitted hs.consistent hle
      exact ⟨kind, body, hbuilt, blockSize64_admitted hs.consistent hbuilt hle,
        map_congr hrun some⟩
  · subst hsize
    have hform := Body.isSequence_of_fits (hs.coherent.fits slot b hb)
      (Kind.isSequence_of_isGrowable hgrowable)
    obtain ⟨current, _, hcurrent, _⟩ := Body.exists_counts hform (hs.coherent.valid slot b hb)
    refine ⟨fun hover => ?_, fun hle => ⟨current, hcurrent, fun hcells => ?_, fun hmore => ?_⟩⟩
    · exact effect_congr (y := throw _)
        (seqReserve_exceeded hs roots hslot hb hgrowable hcurrent hover)
    · have hrun := seqReserve_run roots hslot hb hgrowable hcurrent capacity
      rw [if_neg (Nat.not_lt.mpr hcells)] at hrun
      exact effect_congr hrun
    · obtain ⟨body, hgrow, hbuilt, hrun⟩ :=
        seqReserve_admitted hs roots hslot hb hgrowable hcurrent hle hmore
      exact ⟨body, hgrow, hbuilt, blockSize64_admitted hs.consistent hbuilt hle,
        effect_congr hrun⟩

end Digests

/-- An arena of 144 bytes has no block for a dict of four entries, for more locals than there are
numbers, or for seventeen items, and it has room for a hundred bytes or ten items. At the top of the
range, the largest list that can be counted is one item short of the first that cannot. -/
theorem counted_sizes_cramped :
    ((Sizing.sequence .list 2305843009213693949).precheck = .ok (some 18446744073709551608) ∧
      (Sizing.sequence .list 2305843009213693950).precheck = .ok none) ∧
    (∃ t, ProbeTable.withCapacity 8 true = .ok t ∧ (Body.hash t).blockSize64 = .ok 208) ∧
    (∀ h', (Operation.newSysObj 100).perform [Value.ofSlot 0] cramped ≠
      .error (.fault .arithmetic) h') ∧
    ((Operation.newDict 4).perform [] cramped =
        .error (.refused (.outOfMemory 208 104 104)) cramped ∧
      (Operation.newFrame .nil .nil .nil 18446744073709551615 1).perform [] cramped =
        .error (.refused (.outOfMemory 18446744073709551615 104 104)) cramped ∧
      ∃ kind body, body.blockSize64 = .ok 120 ∧
        (Operation.newSysObj 100).perform [] cramped = (some <$> allocate [] kind body) cramped) ∧
    (Operation.seqReserve (Value.ofSlot 0) 17).perform [] cramped =
        .error (.refused (.outOfMemory 152 104 104)) cramped ∧
      (Operation.seqReserve (Value.ofSlot 0) 10).perform [] cramped =
        Operation.effect (resize [] 0 [] 96 (Body.seqGrow 10)) cramped := by
  obtain ⟨hsizes, htables, hfaults, hmakes, hreserves⟩ :=
    (reachable_cramped fun _ => True).counted_sizes
  refine ⟨⟨?_, ?_⟩, ?_, ?_, ⟨?_, ?_, ?_⟩, ?_, ?_⟩
  · exact (hsizes (.sequence .list _) rfl).2.1
  · exact (hsizes (.sequence .list _) rfl).2.1
  · obtain ⟨t, ht, hbuilt⟩ := htables 8 true ⟨3, rfl⟩ (by decide)
    exact ⟨t, ht, ((hsizes (.table true 8) trivial).2.2 _ hbuilt).2 (by decide)⟩
  · refine hfaults _ _ fun v hv => ?_
    obtain rfl : v = Value.ofSlot 0 := by simpa [Operation.arguments] using hv
    exact usable_of_slot? rfl rfl
  · have hslots : ProbeTable.capacityFor? 4 cramped.settings.loadFactor
        cramped.settings.minHashCapacity = some 8 := by decide +kernel
    have hasked : (Operation.newDict 4).Sized cramped
        ((ProbeTable.capacityFor? 4 cramped.settings.loadFactor
          cramped.settings.minHashCapacity).map (.table true)) := .dict
    rw [hslots] at hasked
    refine (hmakes [] _ _ hasked).1 ?_
    rintro s ⟨⟩
    decide
  · refine (hmakes [] _ _ .frame).1 ?_
    rintro s ⟨⟩
    decide
  · obtain ⟨kind, body, _, hsize, hrun⟩ :=
      (hmakes [] (.newSysObj 100) _ .sysObj).2 _ rfl (by decide)
    exact ⟨kind, body, hsize, hrun⟩
  · exact (hreserves [] _ 0 _ 17 _ rfl rfl rfl rfl).1 (by decide)
  · obtain ⟨current, hcurrent, _, hgrows⟩ :=
      (hreserves [] (Value.ofSlot 0) 0 _ 10 _ rfl rfl rfl rfl).2 (by decide)
    obtain rfl := Except.ok.inj hcurrent
    obtain ⟨_, _, _, _, hrun⟩ := hgrows (by decide)
    exact hrun

end Heap

end ObjectHeap
