import ObjectHeap.Sequence
import ObjectHeap.Proofs.Keys

/-! # Elements of sequences

A payload in the form of a sequence has *elements*, and those of other forms have none. Bytes and
16-bit units count as small integers. The operations on a payload do to its elements what the same
operations do to a list. A payload is *adjusted* if it keeps its form and its size and refers to
nothing new but the values added to it.
-/

namespace ObjectHeap

/-! ## Small integers -/

namespace Value

/-- The value of a byte or a 16-bit unit. -/
def ofUnit (n : Nat) : Value := .ofInline .smallInt (UInt32.ofNat n)

/-- The payload stands in the upper half of an inline word, and the tag in the lower one. -/
theorem toNat_word_ofInline (kind : Kind) (payload : UInt32) :
    (ofInline kind payload).word.toNat = payload.toNat * 4294967296 + (2 * kind.code + 1) := by
  have hcode : kind.code < 31 := by cases kind <;> decide
  have hpayload := payload.toNat_lt
  simp only [ofInline, UInt64.toNat_add, UInt64.toNat_mul, UInt32.toNat_toUInt64,
    UInt64.toNat_ofNat', UInt64.reduceToNat]
  omega

/-- An inline word is no reference. -/
theorem slot?_ofInline (kind : Kind) (payload : UInt32) : (ofInline kind payload).slot? = none := by
  have hodd : (ofInline kind payload).isInline = true := by
    rw [isInline, beq_iff_eq, ← UInt64.toNat_inj, UInt64.toNat_mod, toNat_word_ofInline]
    simp only [UInt64.reduceToNat]
    omega
  rw [slot?, if_pos hodd]

/-- The kind of an inline word is the one it was made with. -/
theorem inlineKind?_ofInline {kind : Kind} (hkind : kind.isInline = true) (payload : UInt32) :
    (ofInline kind payload).inlineKind? = .ok (some kind) := by
  have hcode : kind.code < 31 := by cases kind <;> decide
  have htag : (ofInline kind payload).tagBits = kind.code := by
    rw [tagBits, UInt64.toNat_mod, UInt64.toNat_div, toNat_word_ofInline]
    simp only [UInt64.reduceToNat]
    omega
  have hodd : (ofInline kind payload).isInline = true := by
    have hslot := slot?_ofInline kind payload
    rw [slot?] at hslot
    split at hslot
    · assumption
    · cases hslot
  rw [inlineKind?, if_pos hodd, htag, Kind.ofCode?_code]
  exact if_pos hkind

/-- The payload of an inline word is the one it was made with. -/
theorem payload_ofInline (kind : Kind) (payload : UInt32) :
    (ofInline kind payload).payload = payload := by
  have hcode : kind.code < 31 := by cases kind <;> decide
  have hpayload := payload.toNat_lt
  rw [Value.payload, ← UInt32.toNat_inj, UInt64.toNat_toUInt32, UInt64.toNat_div,
    toNat_word_ofInline]
  simp only [UInt64.reduceToNat]
  omega

theorem view_ofInline_smallInt (payload : UInt32) :
    (ofInline .smallInt payload).view =
      .ok (.smallInt (ofInline .smallInt payload).signedPayload) := by
  rw [view, slot?_ofInline, inlineKind?_ofInline rfl]
  rfl

variable {v : Value}

/-- Small integers are known by the tag of their words. -/
theorem isSmallInt_eq_true_iff :
    v.isSmallInt = .ok true ↔ v.inlineKind? = .ok (some .smallInt) := by
  rw [isSmallInt]
  cases v.inlineKind? with
  | error fault => simp [bind, Except.bind]
  | ok found => simp [bind, Except.bind, pure, Except.pure]

/-- The words that stand for a number are the small integers with that payload. -/
theorem view_eq_smallInt_iff {n : Int} :
    v.view = .ok (.smallInt n) ↔ v.isSmallInt = .ok true ∧ v.signedPayload = n := by
  rw [isSmallInt_eq_true_iff, view]
  cases hslot : v.slot? with
  | some slot =>
      -- the kind of a reference is not in its word
      have hkind : v.inlineKind? = .ok none := by
        rw [slot?] at hslot
        split at hslot
        · cases hslot
        · exact if_neg ‹_›
      simp [hkind]
  | none =>
      cases v.inlineKind? with
      | error fault => simp [bind, Except.bind]
      | ok found =>
          simp only [bind, Except.bind, pure, Except.pure]
          grind

end Value

namespace Kind

/-- Whether a sequence of a kind takes an item. The elements of byte and 16-bit sequences are
small integers in range. -/
def Takes (kind : Kind) (item : Value) : Prop :=
  ∀ largest, Heap.elementMax? kind = some largest →
    ∃ n, item.view = .ok (.smallInt n) ∧ 0 ≤ n ∧ n ≤ largest

/-- What a sequence of a kind holds of an item that it takes. Of a number it holds the value, in
whatever word it came. -/
def element (kind : Kind) (item : Value) : Value :=
  match Heap.elementMax? kind with
  | some _ => .ofInline .smallInt item.payload
  | none => item

/-- What a sequence of a kind is filled up with. -/
def filler (kind : Kind) : Value :=
  match Heap.elementMax? kind with
  | some _ => .ofUnit 0
  | none => .nil

end Kind

namespace Body

def elements : Body → List Value
  | .bytes seq => seq.toList.map fun b => .ofUnit b.toNat
  | .shorts seq => seq.toList.map fun s => .ofUnit s.toNat
  | .objects seq => seq.toList
  | _ => []

/-- What a sequence holds of an item that is put into it. -/
def element : Body → Value → Value
  | .bytes _, item => .ofUnit (byteOf item).toNat
  | .shorts _, item => .ofUnit (shortOf item).toNat
  | _, item => item

/-- What a sequence is filled up with. -/
def filler : Body → Value
  | .bytes _ | .shorts _ => .ofUnit 0
  | _ => .nil

theorem byteOf_ofUnit (b : UInt8) : byteOf (.ofUnit b.toNat) = b := by
  have hb := b.toNat_lt
  rw [byteOf, Value.ofUnit, Value.payload_ofInline, ← UInt8.toNat_inj, UInt8.toNat_ofNat',
    UInt32.toNat_ofNat']
  omega

/-- A small integer within bounds is its own payload. -/
theorem toNat_payload_le {item : Value} {n largest : Int} (hview : item.view = .ok (.smallInt n))
    (hpos : 0 ≤ n) (hle : n ≤ largest) : (item.payload.toNat : Int) ≤ largest := by
  obtain ⟨_, rfl⟩ := Value.view_eq_smallInt_iff.mp hview
  have hlt := item.payload.toNat_lt
  rw [Value.signedPayload] at hpos hle
  split at hpos
  next hsmall =>
    rw [if_pos hsmall] at hle
    exact hle
  next => omega

/-- Of an item that it takes, a sequence holds what its kind says. -/
theorem element_eq {body : Body} {kind : Kind} (hfits : body.fits kind = true) {item : Value}
    (htakes : kind.Takes item) : body.element item = kind.element item := by
  cases body with
  | bytes seq =>
      have hmax : Heap.elementMax? kind = some 255 := by
        rw [Heap.elementMax?, beq_iff_eq.mp hfits]
      obtain ⟨n, hview, hpos, hle⟩ := htakes 255 hmax
      have hpayload := toNat_payload_le hview hpos hle
      rw [Kind.element, hmax, element, Value.ofUnit, byteOf, UInt8.toNat_ofNat',
        Nat.mod_eq_of_lt (by omega), UInt32.ofNat_toNat]
  | shorts seq =>
      have hmax : Heap.elementMax? kind = some 65535 := by
        rw [Heap.elementMax?, beq_iff_eq.mp hfits]
      obtain ⟨n, hview, hpos, hle⟩ := htakes 65535 hmax
      have hpayload := toNat_payload_le hview hpos hle
      rw [Kind.element, hmax, element, Value.ofUnit, shortOf, UInt16.toNat_ofNat',
        Nat.mod_eq_of_lt (by omega), UInt32.ofNat_toNat]
  | _ => cases kind <;> first | rfl | simp [fits, Kind.shape] at hfits

/-- Payloads that fit a kind are filled up as the kind says. -/
theorem filler_eq {body : Body} {kind : Kind} (hfits : body.fits kind = true) :
    body.filler = kind.filler := by
  cases body <;> cases kind <;> first | rfl | simp [fits, Kind.shape] at hfits

/-- A change of a payload that keeps its form and its size. -/
structure Adjusts (body body' : Body) (added : List Value) : Prop where
  fits_eq : ∀ kind, body'.fits kind = body.fits kind
  valid : body'.Valid
  size_eq : body'.blockSize = body.blockSize
  edges : ∀ v ∈ body'.edges, v ∈ body.edges ∨ v ∈ added ∨ v = Value.nil
  table_iff : ∀ t, body' = .hash t ↔ body = .hash t

variable {body body' : Body} {added : List Value}

/-- Adjustments compose, and so do the values they add. -/
theorem Adjusts.trans {body'' : Body} {added' : List Value} (hadj : body.Adjusts body' added)
    (hadj' : body'.Adjusts body'' added') : body.Adjusts body'' (added ++ added') := by
  refine ⟨fun kind => (hadj'.fits_eq kind).trans (hadj.fits_eq kind), hadj'.valid,
    hadj'.size_eq.trans hadj.size_eq, fun v hv => ?_,
    fun t => (hadj'.table_iff t).trans (hadj.table_iff t)⟩
  rw [List.mem_append]
  rcases hadj'.edges v hv with hv | hv | rfl
  · rcases hadj.edges v hv with hv | hv | rfl
    · exact Or.inl hv
    · exact Or.inr (Or.inl (Or.inl hv))
    · exact Or.inr (Or.inr rfl)
  · exact Or.inr (Or.inl (Or.inr hv))
  · exact Or.inr (Or.inr rfl)

/-! ## Forms -/

/-- Bytes hold no references, so that any change of them within their capacity adjusts them. -/
theorem adjusts_bytes {seq seq' : BoundedSeq UInt8} {units : List UInt8}
    (h : seq.Adjusts seq' units) (added : List Value) :
    (Body.bytes seq).Adjusts (.bytes seq') added :=
  ⟨fun _ => rfl, h.valid, by simp [blockSize, payloadSize, h.capacity_eq], by simp [edges],
    by simp⟩

theorem adjusts_shorts {seq seq' : BoundedSeq UInt16} {units : List UInt16}
    (h : seq.Adjusts seq' units) (added : List Value) :
    (Body.shorts seq).Adjusts (.shorts seq') added :=
  ⟨fun _ => rfl, h.valid, by simp [blockSize, payloadSize, h.capacity_eq], by simp [edges],
    by simp⟩

theorem adjusts_objects {seq seq' : BoundedSeq Value} (h : seq.Adjusts seq' added) :
    (Body.objects seq).Adjusts (.objects seq') added :=
  ⟨fun _ => rfl, h.valid, by simp [blockSize, payloadSize, h.capacity_eq], h.mem,
    by simp⟩

/-- The forms of a sequence. -/
def IsSequence (body : Body) : Prop :=
  (∃ seq, body = .bytes seq) ∨ (∃ seq, body = .shorts seq) ∨ ∃ seq, body = .objects seq

/-- What fits a kind of sequence is a sequence. -/
theorem isSequence_of_fits {kind : Kind} (hfits : body.fits kind = true)
    (hkind : kind.isSequence = true) : body.IsSequence := by
  cases body with
  | bytes seq => exact Or.inl ⟨seq, rfl⟩
  | shorts seq => exact Or.inr (Or.inl ⟨seq, rfl⟩)
  | objects seq => exact Or.inr (Or.inr ⟨seq, rfl⟩)
  | _ => cases kind <;> simp [fits, Kind.isSequence, Kind.shape] at hfits hkind

theorem exists_bytes {kind : Kind} (hfits : body.fits kind = true)
    (hshape : kind.shape = .byteSequence) : ∃ seq, body = .bytes seq := by
  rcases isSequence_of_fits hfits (by simp [Kind.isSequence, hshape]) with
    hbytes | ⟨seq, rfl⟩ | ⟨seq, rfl⟩
  · exact hbytes
  · simp [fits, hshape] at hfits
  · simp [fits, hshape] at hfits

theorem exists_shorts {kind : Kind} (hfits : body.fits kind = true)
    (hshape : kind.shape = .shortSequence) : ∃ seq, body = .shorts seq := by
  rcases isSequence_of_fits hfits (by simp [Kind.isSequence, hshape]) with
    ⟨seq, rfl⟩ | hshorts | ⟨seq, rfl⟩
  · simp [fits, hshape] at hfits
  · exact hshorts
  · simp [fits, hshape] at hfits

theorem exists_objects {kind : Kind} (hfits : body.fits kind = true)
    (hshape : kind.shape = .objectSequence) : ∃ seq, body = .objects seq := by
  rcases isSequence_of_fits hfits (by simp [Kind.isSequence, hshape]) with
    ⟨seq, rfl⟩ | ⟨seq, rfl⟩ | hobjects
  · simp [fits, hshape] at hfits
  · simp [fits, hshape] at hfits
  · exact hobjects

theorem IsSequence.ne_hash (hseq : body.IsSequence) (t : ProbeTable) : body ≠ .hash t := by
  rcases hseq with ⟨seq, rfl⟩ | ⟨seq, rfl⟩ | ⟨seq, rfl⟩ <;> exact nofun

/-- A payload that is left alone is adjusted. -/
theorem adjusts_self (hvalid : body.Valid) : body.Adjusts body [] :=
  ⟨fun _ => rfl, hvalid, rfl, fun _ hv => Or.inl hv, fun _ => Iff.rfl⟩

/-- The counts of a sequence. -/
theorem exists_counts (hseq : body.IsSequence) (hvalid : body.Valid) :
    ∃ capacity, body.seqLen = .ok body.elements.length ∧ body.seqCapacity = .ok capacity ∧
      body.elements.length ≤ capacity := by
  rcases hseq with ⟨seq, rfl⟩ | ⟨seq, rfl⟩ | ⟨seq, rfl⟩ <;>
    · have hvalid : seq.Valid := hvalid
      refine ⟨_, ?_, rfl, ?_⟩ <;>
        simp only [seqLen, elements, List.length_map, hvalid.length_toList]
      exact hvalid.len_le

/-! ## Reading -/

/-- A unit of 16 bits or less is read as a small integer. -/
theorem unitValue_eq {n : Nat} (h : n < 65536) : unitValue n = .ok (.ofUnit n) := by
  have hfits : Value.fitsSmallInt n = true := by
    rw [Value.fitsSmallInt, Bool.and_eq_true, decide_eq_true_iff, decide_eq_true_iff,
      Value.smallIntMin, Value.smallIntMax]
    omega
  rw [unitValue, Value.smallInt, if_pos hfits, Value.ofUnit]
  congr
  omega

theorem byteValue_eq (b : UInt8) : unitValue b.toNat = .ok (.ofUnit b.toNat) :=
  unitValue_eq (Nat.lt_trans b.toNat_lt (by decide))

theorem shortValue_eq (s : UInt16) : unitValue s.toNat = .ok (.ofUnit s.toNat) :=
  unitValue_eq s.toNat_lt

/-- Whether a value can be read from a payload: one that it refers to, or a small integer that
stands for a byte or a unit. -/
def Supplies (body : Body) (v : Value) : Prop :=
  v ∈ body.edges ∨ ∃ n, Value.smallInt n = .ok v

theorem supplies_of_mem {v : Value} (hv : v ∈ body.elements) : body.Supplies v := by
  cases body with
  | bytes seq =>
      obtain ⟨b, _, rfl⟩ := List.mem_map.mp hv
      exact Or.inr ⟨_, byteValue_eq b⟩
  | shorts seq =>
      obtain ⟨s, _, rfl⟩ := List.mem_map.mp hv
      exact Or.inr ⟨_, shortValue_eq s⟩
  | objects seq => exact Or.inl hv
  | _ => cases hv

/-- Reading a sequence is reading its elements. -/
theorem seqGet?_eq (hseq : body.IsSequence) (index : Nat) :
    body.seqGet? index = .ok body.elements[index]? := by
  rcases hseq with ⟨seq, rfl⟩ | ⟨seq, rfl⟩ | ⟨seq, rfl⟩
  · simp only [seqGet?, BoundedSeq.get?_eq, elements, List.getElem?_map]
    cases seq.toList[index]? with
    | none => rfl
    | some b => simp [byteValue_eq b]
  · simp only [seqGet?, BoundedSeq.get?_eq, elements, List.getElem?_map]
    cases seq.toList[index]? with
    | none => rfl
    | some s => simp [shortValue_eq s]
  · simp only [seqGet?, BoundedSeq.get?_eq, elements]

/-! ## Writing -/

/-- A sequence refuses an index past its elements, and replaces the element there otherwise. -/
theorem seqSet?_cases (hseq : body.IsSequence) (hvalid : body.Valid) (index : Nat) (item : Value) :
    (body.seqSet? index item = .ok none ∧ body.elements.length ≤ index) ∨
      ∃ body', body.seqSet? index item = .ok (some body') ∧ index < body.elements.length ∧
        body.Adjusts body' [item] ∧
        body'.elements = body.elements.set index (body.element item) := by
  rcases hseq with ⟨seq, rfl⟩ | ⟨seq, rfl⟩ | ⟨seq, rfl⟩
  · rcases BoundedSeq.set?_cases hvalid index (byteOf item) with
      ⟨hset, hle⟩ | ⟨seq', hset, hlt, hadj, hlist⟩
    · exact Or.inl ⟨by rw [seqSet?, hset]; rfl, by simpa [elements] using hle⟩
    · exact Or.inr ⟨.bytes seq', by rw [seqSet?, hset]; rfl, by simpa [elements] using hlt,
        adjusts_bytes hadj _, by simp [elements, element, hlist, List.map_set]⟩
  · rcases BoundedSeq.set?_cases hvalid index (shortOf item) with
      ⟨hset, hle⟩ | ⟨seq', hset, hlt, hadj, hlist⟩
    · exact Or.inl ⟨by rw [seqSet?, hset]; rfl, by simpa [elements] using hle⟩
    · exact Or.inr ⟨.shorts seq', by rw [seqSet?, hset]; rfl, by simpa [elements] using hlt,
        adjusts_shorts hadj _, by simp [elements, element, hlist, List.map_set]⟩
  · rcases BoundedSeq.set?_cases hvalid index item with
      ⟨hset, hle⟩ | ⟨seq', hset, hlt, hadj, hlist⟩
    · exact Or.inl ⟨by rw [seqSet?, hset]; rfl, hle⟩
    · exact Or.inr ⟨.objects seq', by rw [seqSet?, hset]; rfl, hlt, adjusts_objects hadj, hlist⟩

/-- A sequence refuses a length past its capacity, and cuts off or fills up its elements
otherwise. -/
theorem seqSetLen?_cases {capacity : Nat} (hseq : body.IsSequence) (hvalid : body.Valid)
    (hcapacity : body.seqCapacity = .ok capacity) (len : Nat) :
    (body.seqSetLen? len = .ok none ∧ capacity < len) ∨
      ∃ body', body.seqSetLen? len = .ok (some body') ∧ len ≤ capacity ∧ body.Adjusts body' [] ∧
        body'.elements =
          body.elements.take len ++ List.replicate (len - body.elements.length) body.filler := by
  rcases hseq with ⟨seq, rfl⟩ | ⟨seq, rfl⟩ | ⟨seq, rfl⟩ <;> cases hcapacity <;>
    rcases BoundedSeq.setLen?_cases hvalid len with ⟨hset, hlt⟩ | ⟨seq', hset, hle, hadj, hlist⟩
  · exact Or.inl ⟨by rw [seqSetLen?, hset]; rfl, hlt⟩
  · refine Or.inr ⟨.bytes seq', by rw [seqSetLen?, hset]; rfl, hle, adjusts_bytes hadj _, ?_⟩
    simp only [elements, hlist, List.map_append, List.map_take, List.map_replicate, List.length_map]
    rfl
  · exact Or.inl ⟨by rw [seqSetLen?, hset]; rfl, hlt⟩
  · refine Or.inr ⟨.shorts seq', by rw [seqSetLen?, hset]; rfl, hle, adjusts_shorts hadj _, ?_⟩
    simp only [elements, hlist, List.map_append, List.map_take, List.map_replicate, List.length_map]
    rfl
  · exact Or.inl ⟨by rw [seqSetLen?, hset]; rfl, hlt⟩
  · exact Or.inr ⟨.objects seq', by rw [seqSetLen?, hset]; rfl, hle, adjusts_objects hadj, hlist⟩

/-- An empty sequence has nothing to pop; of another one the last element is taken. -/
theorem seqPop?_cases (hseq : body.IsSequence) (hvalid : body.Valid) :
    (body.seqPop? = .ok none ∧ body.elements = []) ∨
      ∃ item body', body.seqPop? = .ok (some (item, body')) ∧ body.Adjusts body' [] ∧
        body.elements = body'.elements ++ [item] := by
  rcases hseq with ⟨seq, rfl⟩ | ⟨seq, rfl⟩ | ⟨seq, rfl⟩ <;>
    rcases BoundedSeq.pop?_cases hvalid with ⟨hpop, hlist⟩ | ⟨last, seq', hpop, hadj, hlist⟩
  · exact Or.inl ⟨by rw [seqPop?, hpop]; rfl, by simp [elements, hlist]⟩
  · refine Or.inr ⟨.ofUnit last.toNat, .bytes seq', ?_, adjusts_bytes hadj _,
      by simp [elements, hlist]⟩
    simp only [seqPop?, hpop, Option.mapM_some, byteValue_eq]
    rfl
  · exact Or.inl ⟨by rw [seqPop?, hpop]; rfl, by simp [elements, hlist]⟩
  · refine Or.inr ⟨.ofUnit last.toNat, .shorts seq', ?_, adjusts_shorts hadj _,
      by simp [elements, hlist]⟩
    simp only [seqPop?, hpop, Option.mapM_some, shortValue_eq]
    rfl
  · exact Or.inl ⟨by rw [seqPop?, hpop]; rfl, hlist⟩
  · exact Or.inr ⟨last, .objects seq', by rw [seqPop?, hpop]; rfl, adjusts_objects hadj, hlist⟩

/-- A sequence with a cell to spare takes one more element. -/
theorem seqPush?_spec {capacity : Nat} (hseq : body.IsSequence) (hvalid : body.Valid)
    (hcapacity : body.seqCapacity = .ok capacity) (hroom : body.elements.length < capacity)
    (item : Value) :
    ∃ body', body.seqPush? item = .ok (some body') ∧ body.Adjusts body' [item] ∧
      body'.IsSequence ∧ body'.seqCapacity = .ok capacity ∧ body'.element = body.element ∧
      body'.elements = body.elements ++ [body.element item] := by
  rcases hseq with ⟨seq, rfl⟩ | ⟨seq, rfl⟩ | ⟨seq, rfl⟩ <;> cases hcapacity
  · obtain ⟨seq', hpush, hadj, hlist⟩ :=
      BoundedSeq.push?_spec hvalid (by simpa [elements] using hroom) (byteOf item)
    exact ⟨.bytes seq', by rw [seqPush?, hpush]; rfl, adjusts_bytes hadj _, Or.inl ⟨_, rfl⟩,
      congrArg _ hadj.capacity_eq, rfl, by simp [elements, element, hlist]⟩
  · obtain ⟨seq', hpush, hadj, hlist⟩ :=
      BoundedSeq.push?_spec hvalid (by simpa [elements] using hroom) (shortOf item)
    exact ⟨.shorts seq', by rw [seqPush?, hpush]; rfl, adjusts_shorts hadj _,
      Or.inr (Or.inl ⟨_, rfl⟩), congrArg _ hadj.capacity_eq, rfl,
      by simp [elements, element, hlist]⟩
  · obtain ⟨seq', hpush, hadj, hlist⟩ := BoundedSeq.push?_spec hvalid hroom item
    exact ⟨.objects seq', by rw [seqPush?, hpush]; rfl, adjusts_objects hadj,
      Or.inr (Or.inr ⟨_, rfl⟩), congrArg _ hadj.capacity_eq, rfl, hlist⟩

theorem seqPushAll_cons (body : Body) (item : Value) (items : List Value) :
    body.seqPushAll (item :: items) = (do
      match ← body.seqPush? item with
      | some pushed => pushed.seqPushAll items
      | none => .error .misfit) := by
  rw [seqPushAll, List.foldlM_cons]
  cases body.seqPush? item with
  | error fault => rfl
  | ok found => cases found <;> rfl

/-- A sequence with enough cells takes all of some items. -/
theorem seqPushAll_spec {capacity : Nat} {items : List Value} (hseq : body.IsSequence)
    (hvalid : body.Valid) (hcapacity : body.seqCapacity = .ok capacity)
    (hroom : body.elements.length + items.length ≤ capacity) :
    ∃ body', body.seqPushAll items = .ok body' ∧ body.Adjusts body' items ∧
      body'.seqCapacity = .ok capacity ∧
      body'.elements = body.elements ++ items.map body.element := by
  induction items generalizing body with
  | nil => exact ⟨body, rfl, adjusts_self hvalid, hcapacity, by simp⟩
  | cons item items ih =>
      rw [List.length_cons] at hroom
      obtain ⟨mid, hpush, hadj, hseq', hcapacity', helement, hlist⟩ :=
        seqPush?_spec hseq hvalid hcapacity (by omega) item
      obtain ⟨body', hall, hadj', hsame, hlist'⟩ := ih hseq' hadj.valid hcapacity' (by
        rw [hlist, List.length_append, List.length_singleton]
        omega)
      refine ⟨body', ?_, hadj.trans hadj', hsame, ?_⟩
      · rw [seqPushAll_cons, hpush]
        exact hall
      · rw [hlist', hlist, helement, List.append_assoc]
        rfl

/-- A sequence with the same elements and more cells. -/
structure Grows (body : Body) (capacity : Nat) (body' : Body) : Prop where
  fits_eq : ∀ kind, body'.fits kind = body.fits kind
  valid : body'.Valid
  isSequence : body'.IsSequence
  edges_eq : body'.edges = body.edges
  elements_eq : body'.elements = body.elements
  element_eq : body'.element = body.element
  seqCapacity_eq : body'.seqCapacity = .ok capacity

/-- A sequence grows to any capacity that is no less than the one it has. -/
theorem seqGrow_spec {least capacity : Nat} (hseq : body.IsSequence) (hvalid : body.Valid)
    (hleast : body.seqCapacity = .ok least) (hle : least ≤ capacity) :
    ∃ body', body.seqGrow capacity = .ok body' ∧ body.Grows capacity body' := by
  rcases hseq with ⟨seq, rfl⟩ | ⟨seq, rfl⟩ | ⟨seq, rfl⟩ <;>
    obtain ⟨seq', hgrow, hvalid', hcapacity, hlen, hlist⟩ :=
      BoundedSeq.grow_spec hvalid (Except.ok.inj hleast ▸ hle)
  · exact ⟨.bytes seq', by rw [seqGrow, hgrow]; rfl, fun _ => rfl, hvalid', Or.inl ⟨_, rfl⟩, rfl,
      by simp [elements, hlist], rfl, congrArg Except.ok hcapacity⟩
  · exact ⟨.shorts seq', by rw [seqGrow, hgrow]; rfl, fun _ => rfl, hvalid',
      Or.inr (Or.inl ⟨_, rfl⟩), rfl, by simp [elements, hlist], rfl, congrArg Except.ok hcapacity⟩
  · exact ⟨.objects seq', by rw [seqGrow, hgrow]; rfl, fun _ => rfl, hvalid',
      Or.inr (Or.inr ⟨_, rfl⟩), hlist, hlist, rfl, congrArg Except.ok hcapacity⟩

theorem block_of_countedBlock? {fixed count unit size : Nat}
    (h : Layout.countedBlock? fixed count unit = some size) :
    Layout.block (fixed + unit * count) = size := by
  rw [Layout.countedBlock?_eq] at h
  split at h
  next => exact Option.some.inj h
  next => cases h

/-- The size worked out before a sequence is built is the size that it gets. -/
theorem blockSize_of_seqCapacity {kind : Kind} {capacity unit size : Nat}
    (hfits : body.fits kind = true) (hcapacity : body.seqCapacity = .ok capacity)
    (hunit : Layout.elementSize? kind = some unit)
    (hsize : Layout.countedBlock? Layout.countsSize capacity unit = some size) :
    body.blockSize = size := by
  rw [Layout.elementSize?] at hunit
  have hblock := block_of_countedBlock? hsize
  cases body with
  | bytes seq =>
      simp only [fits, beq_iff_eq] at hfits
      simp only [hfits, Option.some.injEq] at hunit
      rw [← Except.ok.inj hcapacity, ← hunit, Nat.one_mul] at hblock
      exact hblock
  | shorts seq =>
      simp only [fits, beq_iff_eq] at hfits
      simp only [hfits, Option.some.injEq] at hunit
      rw [← Except.ok.inj hcapacity, ← hunit] at hblock
      exact hblock
  | objects seq =>
      simp only [fits, beq_iff_eq] at hfits
      simp only [hfits, Option.some.injEq] at hunit
      rw [← Except.ok.inj hcapacity, ← hunit] at hblock
      exact hblock
  | _ => cases hcapacity

end Body

end ObjectHeap
