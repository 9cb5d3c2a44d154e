import ObjectHeap.Construct
import ObjectHeap.Proofs.Frames
import ObjectHeap.Proofs.Load

/-! # Construction

Every constructor leaves a sound heap in which its result and its arguments can be used, or is
refused.
-/

namespace ObjectHeap

namespace Heap

variable {admits : Value → Prop} {h : Heap}

/-- A small integer that fits is an inline word with its two's complement as payload. -/
theorem smallInt_of_fits {n : Int} (hfits : Value.fitsSmallInt n = true) :
    Value.smallInt n = .ok (Value.ofInline .smallInt (UInt32.ofNat (n % 4294967296).toNat)) :=
  if_pos hfits

/-- Small integers are usable in every heap. -/
theorem usable_smallInt {n : Int} {v : Value} (hv : Value.smallInt n = .ok v) :
    h.Usable admits v := by
  rw [Value.smallInt] at hv
  split at hv
  next =>
    cases hv
    refine ⟨by rw [contains, Value.slot?_ofInline], Or.inl ?_⟩
    rw [Value.view, Value.slot?_ofInline, Value.inlineKind?_ofInline rfl]
    exact ⟨_, rfl⟩
  next => cases hv

variable [Digest] {roots : List Value}

/-- An allocation ends well if the payload refers to all arguments, and else to absent values. -/
theorem allocate_ends (hs : h.Sound admits 0) (hroots : ∀ v ∈ roots, h.Usable admits v)
    {kind : Kind} {body : Body} (ha : h.Accepts admits kind body)
    (hblank : ∀ t, body = .hash t → t.Unused) {args : List Value}
    (hargs : ∀ v ∈ args, v ∈ body.edges) (hedges : ∀ v ∈ body.edges, v ∈ args ∨ v = Value.nil) :
    Ends admits (allocate roots kind body) h (roots ++ args) .fresh fun v => [v] := by
  have hends : Ends admits (allocate roots kind body) h (roots ++ body.edges) .fresh
      fun v => [v] := by
    refine (allocate_yields hs hroots ha).mono (fun v h' hv => ?_) fun _ _ hd => hd.2
    obtain ⟨slot, hslot, hnew⟩ := hv
    exact hnew.completed hblank hslot
  refine hends.starts_congr (held_congr (fun v hv => ?_) fun v hv => ?_)
  · rcases List.mem_append.mp hv with hv | hv
    · exact holds_of_mem (List.mem_append_left _ hv)
    · rcases hedges v hv with hv | rfl
      · exact holds_of_mem (List.mem_append_right _ hv)
      · exact fun _ hslot => nomatch hslot
  · rcases List.mem_append.mp hv with hv | hv
    · exact holds_of_mem (List.mem_append_left _ hv)
    · exact holds_of_mem (List.mem_append_right _ (hargs v hv))

/-- A payload without a table that refers to nothing needs no arguments. -/
theorem allocate_leaf_ends (hs : h.Sound admits 0) (hroots : ∀ v ∈ roots, h.Usable admits v)
    {kind : Kind} {body : Body} (ha : h.Accepts admits kind body) (hbody : ∀ t, body ≠ .hash t)
    (hedges : ∀ v ∈ body.edges, v = Value.nil) :
    Ends admits (allocate roots kind body) h (roots ++ []) .fresh fun v => [v] :=
  allocate_ends hs hroots ha (fun t ht => absurd ht (hbody t)) (by simp)
    fun v hv => Or.inr (hedges v hv)

/-! ## Payloads -/

theorem accepts_integer (n : Int64) : h.Accepts admits .integer (.integer n) :=
  ⟨rfl, trivial, by simp [Body.edges], fun _ hbody => nomatch hbody⟩

theorem accepts_float (x : Binary64) : h.Accepts admits .float (.float x) :=
  ⟨rfl, trivial, by simp [Body.edges], fun _ hbody => nomatch hbody⟩

/-- Bytes are accepted for the kinds that hold bytes. -/
theorem accepts_bytes {kind : Kind} (hkind : kind.shape = .byteSequence) {seq : BoundedSeq UInt8}
    (hvalid : seq.Valid) : h.Accepts admits kind (.bytes seq) :=
  ⟨by rw [Body.fits, hkind]; rfl, hvalid, by simp [Body.edges], fun _ hbody => nomatch hbody⟩

theorem accepts_shorts {kind : Kind} (hkind : kind.shape = .shortSequence)
    {seq : BoundedSeq UInt16} (hvalid : seq.Valid) :
    h.Accepts admits kind (.shorts seq) :=
  ⟨by rw [Body.fits, hkind]; rfl, hvalid, by simp [Body.edges], fun _ hbody => nomatch hbody⟩

/-- Objects are accepted for the kinds that hold objects, if they are usable. -/
theorem accepts_objects {kind : Kind} (hkind : kind.shape = .objectSequence)
    {seq : BoundedSeq Value} (hvalid : seq.Valid)
    (hitems : ∀ v ∈ seq.toList, h.Usable admits v) : h.Accepts admits kind (.objects seq) :=
  ⟨by rw [Body.fits, hkind]; rfl, hvalid, hitems, fun _ hbody => nomatch hbody⟩

/-- A blank table is accepted for the kinds it fits, if its size is a power of two. -/
theorem accepts_blank {kind : Kind} {slots : Nat} {keepsValues : Bool}
    (hfits : (Body.hash (ProbeTable.blank slots keepsValues)).fits kind = true)
    (hpow : slots.isPowerOfTwo) :
    h.Accepts admits kind (.hash (ProbeTable.blank slots keepsValues)) := by
  refine ⟨hfits, ⟨ProbeTable.valid_blank hpow keepsValues, ?_⟩, ?_, ?_⟩
  · intro _ hash key value hmem
    rw [ProbeTable.toList_blank] at hmem
    cases hmem
  · intro v hv
    obtain ⟨_, _, _, hmem, _⟩ := ProbeTable.mem_edges.mp hv
    rw [ProbeTable.toList_blank] at hmem
    cases hmem
  · rintro table ⟨⟩
    constructor
    · intro hash key value hmem
      rw [ProbeTable.toList_blank] at hmem
      cases hmem
    · rw [ProbeTable.toList_blank]
      exact List.nodup_nil

/-- A record may stand in any heap that has what its fields refer to. -/
theorem accepts_record {kind : Kind} {body : Body} (hfits : body.fits kind = true)
    (hrecord : body.IsRecord) (hvalid : body.Valid)
    (hedges : ∀ v ∈ body.edges, h.Usable admits v) : h.Accepts admits kind body :=
  ⟨hfits, hvalid, hedges, fun table hbody => by rw [hbody] at hrecord; exact hrecord.elim⟩

/-! ## Constructors -/

section Constructors

variable (hs : h.Sound admits 0) (hroots : ∀ v ∈ roots, h.Usable admits v)
include hs hroots

omit hroots in
/-- Checking something first does not change how an operation ends. -/
theorem ends_read {α β : Type} {x : Except Stop α} {f : α → HeapM β} {starts : List Value}
    {target : Target} {results : β → List Value} {Q : α → Prop} (hx : Gives admits x Q)
    (hf : ∀ a, Q a → Ends admits (f a) h starts target results) :
    Ends admits (liftM x >>= f) h starts target results :=
  Yields.read hx (Declined.refl hs starts) hf

theorem newInteger_ends (n : Int64) :
    Ends admits (newInteger roots n) h (roots ++ []) .fresh fun v => [v] :=
  allocate_leaf_ends hs hroots (accepts_integer n) nofun (by simp [Body.edges])

/-- An integer that fits is an inline word, and another one is boxed. -/
theorem newInt_ends (n : Int64) :
    Ends admits (newInt roots n) h (roots ++ []) .fresh fun v => [v] := by
  unfold newInt
  split
  next hfits =>
    have hsmall := smallInt_of_fits hfits
    have hr : h.Retains admits .fresh h := Retains.refl hs .fresh
    refine Yields.lift_eq hsmall ⟨hs, fun v hv => ?_, fun _ v hv s b hslot => ?_, hr.carries _⟩
    · rw [List.mem_singleton.mp hv]
      exact usable_smallInt hsmall
    · rw [List.mem_singleton.mp hv, Value.slot?_ofInline] at hslot
      cases hslot
  next => exact newInteger_ends hs hroots n

theorem newFloat_ends (x : Binary64) :
    Ends admits (newFloat roots x) h (roots ++ []) .fresh fun v => [v] :=
  allocate_leaf_ends hs hroots (accepts_float x) nofun (by simp [Body.edges])

theorem newBytesOf_ends {kind : Kind} (hkind : kind.shape = .byteSequence) (data : Array UInt8) :
    Ends admits (newBytesOf roots kind data) h (roots ++ []) .fresh fun v => [v] :=
  allocate_leaf_ends hs hroots (accepts_bytes hkind (BoundedSeq.valid_filled data)) nofun
    (by simp [Body.edges])

theorem newShorts_ends (data : Array UInt16) :
    Ends admits (newShorts roots data) h (roots ++ []) .fresh fun v => [v] :=
  allocate_leaf_ends hs hroots (accepts_shorts rfl (BoundedSeq.valid_filled data)) nofun
    (by simp [Body.edges])

theorem newShortArray_ends (data : Array UInt16) :
    Ends admits (newShortArray roots data) h (roots ++ []) .fresh fun v => [v] :=
  allocate_leaf_ends hs hroots (accepts_shorts rfl (BoundedSeq.valid_filled data)) nofun
    (by simp [Body.edges])

/-- A tuple or a list of given items. -/
theorem newObjects_ends {kind : Kind} (hkind : kind.shape = .objectSequence)
    {items : Array Value} (hitems : ∀ v ∈ items.toList, h.Usable admits v) :
    Ends admits (allocate roots kind (.objects (BoundedSeq.filled items))) h
      (roots ++ items.toList) .fresh fun v => [v] :=
  allocate_ends hs hroots
    (accepts_objects hkind (BoundedSeq.valid_filled items) (by rwa [BoundedSeq.toList_filled]))
    nofun (by simp [Body.edges]) (by simp +contextual [Body.edges])

omit [Digest] hs hroots in
/-- A sequence starts out empty or filled with zeros, and either is within its capacity. -/
theorem valid_emptyOrZeroed {α : Type} [Inhabited α] (kind : Kind) (len : Nat) :
    (emptyOrZeroed kind len : BoundedSeq α).Valid := by
  rw [emptyOrZeroed]
  split
  · exact BoundedSeq.valid_withCapacity len
  · exact BoundedSeq.valid_zeroed len

omit [Digest] hs hroots in
theorem eq_nil_of_mem_emptyOrZeroed (kind : Kind) (len : Nat) :
    ∀ v ∈ (emptyOrZeroed kind len : BoundedSeq Value).toList, v = Value.nil := by
  intro v hv
  rw [emptyOrZeroed] at hv
  split at hv
  · rw [BoundedSeq.toList_withCapacity] at hv
    cases hv
  · rw [BoundedSeq.toList_zeroed] at hv
    exact List.eq_of_mem_replicate hv

omit [Digest] hs hroots in
/-- The size that a sequence is checked for is that of its block. -/
theorem checkSequence_gives {kind : Kind} (hkind : kind.isSequence = true) (capacity : Nat) :
    Gives admits (h.checkSequence kind capacity) fun size => size ≤ h.settings.heapSize ∧
      ∃ unit, Layout.elementSize? kind = some unit ∧
        Layout.countedBlock? Layout.countsSize capacity unit = some size := by
  obtain ⟨unit, hunit⟩ : ∃ unit, Layout.elementSize? kind = some unit := by
    cases kind <;> first | exact ⟨_, rfl⟩ | simp [Kind.isSequence, Kind.shape] at hkind
  have hblock : Layout.sequenceBlock? kind capacity =
      .ok (Layout.countedBlock? Layout.countsSize capacity unit) := by
    rw [Layout.sequenceBlock?, hunit]
  refine Gives.look_eq hblock ?_
  exact (checkSize_gives h _).mono fun size hsize => ⟨hsize.2, unit, hunit, hsize.1⟩

omit [Digest] hs hroots in
/-- A size is refused only if there is no memory for it. -/
theorem isOutOfMemory_of_checkSize {size : Option Nat} {refusal : Refusal}
    (hrefused : h.checkSize size = .error (.refused refusal)) : refusal.isOutOfMemory = true := by
  unfold checkSize at hrefused
  split at hrefused
  next =>
    split at hrefused
    next => cases hrefused
    next =>
      cases hrefused
      rfl
  next =>
    cases hrefused
    rfl

omit [Digest] hs hroots in
/-- A sequence block is refused for its size only. -/
theorem isOutOfMemory_of_checkSequence {kind : Kind} {capacity : Nat} {refusal : Refusal}
    (hrefused : h.checkSequence kind capacity = .error (.refused refusal)) :
    refusal.isOutOfMemory = true := by
  unfold checkSequence at hrefused
  cases hblock : Layout.sequenceBlock? kind capacity with
  | ok size =>
      rw [hblock] at hrefused
      exact isOutOfMemory_of_checkSize hrefused
  | error fault =>
      rw [hblock] at hrefused
      cases hrefused

/-- A kind that is no sequence is refused, and so is a length that does not fit in the heap. -/
theorem newSequence_ends (kind : Kind) (len : Nat) :
    Ends admits (newSequence roots kind len) h (roots ++ []) .fresh fun v => [v] := by
  unfold newSequence
  dsimp only
  split
  · exact Yields.throw_bind (Declined.refl hs ..)
  next hkind =>
    replace hkind : kind.isSequence = true := by simpa using hkind
    refine Yields.get (ends_read hs (checkSequence_gives hkind len) fun _ _ => ?_)
    cases hshape : kind.shape with
    | byteSequence =>
        exact allocate_leaf_ends hs hroots (accepts_bytes hshape (valid_emptyOrZeroed kind len))
          (by simp) (by simp [Body.edges])
    | shortSequence =>
        exact allocate_leaf_ends hs hroots (accepts_shorts hshape (valid_emptyOrZeroed kind len))
          (by simp) (by simp [Body.edges])
    | objectSequence =>
        have hnil := eq_nil_of_mem_emptyOrZeroed kind len
        refine allocate_leaf_ends hs hroots (accepts_objects hshape (valid_emptyOrZeroed kind len)
          fun v hv => ?_) (by simp) hnil
        rw [hnil v hv]
        exact usable_nil
    | _ => simp [Kind.isSequence, hshape] at hkind

theorem newBuffer_ends (capacity : Nat) :
    Ends admits (newBuffer roots capacity) h (roots ++ []) .fresh fun v => [v] := by
  refine Yields.get (ends_read hs (checkSequence_gives rfl capacity) fun _ _ => ?_)
  exact allocate_leaf_ends hs hroots (accepts_bytes rfl (BoundedSeq.valid_withCapacity capacity))
    nofun (by simp [Body.edges])

theorem newSysObj_ends (size : Nat) :
    Ends admits (newSysObj roots size) h (roots ++ []) .fresh fun v => [v] := by
  refine Yields.get (ends_read hs (checkSequence_gives rfl size) fun _ _ => ?_)
  exact allocate_leaf_ends hs hroots (accepts_bytes rfl (BoundedSeq.valid_zeroed size)) nofun
    (by simp [Body.edges])

omit [Digest] hs hroots in
/-- The capacity that a hint is checked for is that of a table which fits in the heap. -/
theorem hashCapacity_gives (hint : Nat) (keepsValues : Bool) :
    Gives admits (h.hashCapacity hint keepsValues) fun slots =>
      ProbeTable.capacityFor? hint h.settings.loadFactor h.settings.minHashCapacity = some slots ∧
        ∃ size, Layout.hashBlock? keepsValues slots = some size ∧ size ≤ h.settings.heapSize := by
  rw [hashCapacity]
  cases hslots : ProbeTable.capacityFor? hint h.settings.loadFactor h.settings.minHashCapacity with
  | none => exact (checkSize_gives h none).mono fun _ hnone => nomatch hnone.1
  | some slots =>
      refine Gives.bind (checkSize_gives h _) fun size hsize => ?_
      exact Gives.ok ⟨rfl, size, hsize⟩

omit [Digest] hs hroots in
/-- A table block is refused for its size only. -/
theorem isOutOfMemory_of_hashCapacity {hint : Nat} {keepsValues : Bool} {refusal : Refusal}
    (hrefused : h.hashCapacity hint keepsValues = .error (.refused refusal)) :
    refusal.isOutOfMemory = true := by
  unfold hashCapacity at hrefused
  split at hrefused
  next => exact isOutOfMemory_of_checkSize hrefused
  next slots _ =>
    cases hsize : h.checkSize (Layout.hashBlock? keepsValues slots) with
    | ok size =>
        rw [hsize] at hrefused
        cases hrefused
    | error stop =>
        rw [hsize] at hrefused
        cases hrefused
        exact isOutOfMemory_of_checkSize hsize

/-- A new table has blank slots, as many as asked for. -/
theorem newTable_yields {kind : Kind} {keepsValues : Bool}
    (hfits : ∀ slots, (Body.hash (ProbeTable.blank slots keepsValues)).fits kind = true)
    (hint : Nat) {among : Value → Prop} :
    Yields among (do
      let slots ← (← get).hashCapacity hint keepsValues
      allocate roots kind (.hash (← ProbeTable.withCapacity slots keepsValues))) h
      (fun v h' => ∃ slots size slot,
        ProbeTable.capacityFor? hint h.settings.loadFactor h.settings.minHashCapacity = some slots ∧
        Layout.hashBlock? keepsValues slots = some size ∧ size ≤ h.settings.heapSize ∧
        v.slot? = some slot ∧
        h.Allocated admits roots kind (.hash (ProbeTable.blank slots keepsValues)) slot h')
      (fun refusal h' => refusal.isOutOfMemory = true ∧ h.Declined admits roots refusal h') := by
  refine Yields.get (Yields.read_or (hashCapacity_gives hint keepsValues)
    (fun _ hrefused => ⟨isOutOfMemory_of_hashCapacity hrefused, Declined.refl hs _ _⟩)
    fun slots hslots => ?_)
  obtain ⟨hcapacity, size, hblock, hsize⟩ := hslots
  have hload := Settings.fraction_of_flaw? hs.consistent.settings_ok
  obtain ⟨hpow, hlt, _⟩ := ProbeTable.capacityFor?_spec hload hcapacity
  have hedges : (Body.hash (ProbeTable.blank slots keepsValues)).edges = [] := by
    simp [Body.edges, ProbeTable.edges, ProbeTable.toList_blank]
  have ha : h.Accepts admits kind (.hash (ProbeTable.blank slots keepsValues)) :=
    accepts_blank (hfits slots) hpow
  have hnew : Yields among _ h _ _ := allocate_yields hs hroots ha
  rw [hedges, List.append_nil] at hnew
  refine Yields.look_eq (ProbeTable.withCapacity_eq hpow hlt keepsValues) ?_
  refine hnew.mono (fun v h' hv => ?_) fun _ _ hd => hd
  obtain ⟨slot, hslot, hallocated⟩ := hv
  exact ⟨slots, size, slot, hcapacity, hblock, hsize, hslot, hallocated⟩

/-- A table of blank slots. -/
theorem newTable_ends {kind : Kind} {keepsValues : Bool}
    (hfits : ∀ slots, (Body.hash (ProbeTable.blank slots keepsValues)).fits kind = true)
    (hint : Nat) :
    Ends admits (do
      let slots ← (← get).hashCapacity hint keepsValues
      allocate roots kind (.hash (← ProbeTable.withCapacity slots keepsValues))) h
      (roots ++ []) .fresh fun v => [v] := by
  rw [List.append_nil]
  refine (newTable_yields hs hroots hfits hint).mono (fun v h' hv => ?_) fun _ _ hd => hd.2
  obtain ⟨_, _, slot, _, _, _, hslot, hallocated⟩ := hv
  refine hallocated.completed (fun t ht => ?_) hslot
  cases ht
  exact ProbeTable.unused_blank ..

theorem newDict_ends (hint : Nat) :
    Ends admits (newDict roots hint) h (roots ++ []) .fresh fun v => [v] :=
  newTable_ends hs hroots (fun _ => rfl) hint

omit [Digest] hs hroots in
/-- The kinds of sets take tables without values. -/
theorem fits_set {kind : Kind} (hkind : ¬ (kind != .set && kind != .frozenSet) = true)
    (slots : Nat) : (Body.hash (ProbeTable.blank slots false)).fits kind = true := by
  simp only [Bool.and_eq_true, bne_iff_ne, ne_eq, not_and, not_not] at hkind
  by_cases hset : kind = .set
  · rw [hset]
    rfl
  · rw [hkind hset]
    rfl

/-- A set is made with as many slots as its hint asks for, if that table fits in the heap. -/
theorem newSet_ends (kind : Kind) (hint : Nat) :
    Ends admits (newSet roots kind hint) h (roots ++ []) .fresh fun v => [v] := by
  unfold newSet
  dsimp only
  split
  · exact Yields.throw_bind (Declined.refl hs ..)
  next hkind => exact newTable_ends hs hroots (fits_set hkind) hint

theorem newRange_ends (range : IntRange) :
    Ends admits (newRange roots range) h (roots ++ []) .fresh fun v => [v] := by
  unfold newRange
  dsimp only
  split
  · exact Yields.throw_bind (Declined.refl hs ..)
  next hstep =>
    refine allocate_leaf_ends hs hroots (accepts_record rfl ?_ ?_ ?_) nofun (by simp [Body.edges])
    · exact trivial
    · exact hstep
    · simp [Body.edges]

/-- A record whose payload refers to its arguments, and else to absent values. -/
theorem newRecord_ends {kind : Kind} (body : Body) (hfits : body.fits kind = true)
    (hrecord : body.IsRecord) (hvalid : body.Valid) {args : List Value}
    (hedges : ∀ v ∈ body.edges, v ∈ args ∨ v = Value.nil) (hargs : ∀ v ∈ args, v ∈ body.edges)
    (husable : ∀ v ∈ args, h.Usable admits v) :
    Ends admits (allocate roots kind body) h (roots ++ args) .fresh fun v => [v] := by
  refine allocate_ends hs hroots (accepts_record hfits hrecord hvalid fun v hv => ?_)
    (fun t ht => (ht ▸ hrecord : (Body.hash t).IsRecord).elim) hargs hedges
  rcases hedges v hv with hv | rfl
  · exact husable v hv
  · exact usable_nil

/-- A record with no other content than its fields. -/
theorem newFields_ends {kind : Kind} (body : Body) (hfits : body.fits kind = true)
    (hrecord : body.IsRecord) (hvalid : body.Valid)
    (husable : ∀ v ∈ body.edges, h.Usable admits v) :
    Ends admits (allocate roots kind body) h (roots ++ body.edges) .fresh fun v => [v] :=
  newRecord_ends hs hroots body hfits hrecord hvalid (fun _ hv => Or.inl hv)
    (fun _ hv => hv) husable

/-- A frame refers to its parent, function and module, which the collection that it may start
keeps. -/
theorem newFrame_ends {parent function module : Value} (locals stack : Nat)
    (hargs : ∀ v ∈ [parent, function, module], h.Usable admits v) :
    Ends admits (newFrame roots parent function module locals stack) h
      (roots ++ [parent, function, module]) .fresh fun v => [v] := by
  refine Yields.get (ends_read hs (checkSize_gives h _) fun _ _ => ?_)
  refine newRecord_ends hs hroots _ rfl ?_ ?_ ?_ ?_ hargs
  · exact trivial
  · exact BoundedSeq.valid_withCapacity stack
  · intro v hv
    simp only [Body.edges, BoundedSeq.toList_withCapacity, Array.toList_replicate, List.append_nil,
      List.mem_append, List.mem_replicate] at hv
    exact hv.imp_right And.right
  · intro v hv
    exact List.mem_append_left _ (List.mem_append_left _ hv)

end Constructors

end Heap

end ObjectHeap
