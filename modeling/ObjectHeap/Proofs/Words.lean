import ObjectHeap.Proofs.Elements

/-! # Words as codes

Every view that a word has room for is encoded by one word, and decoding that word gives the view
back. Not every word is a code: the tag bits of an inline word may name no inline kind, its payload
may name no exception, and several words may be decoded to the same view. The *canonical* words are
those that decoding and encoding brings back.
-/

namespace ObjectHeap

theorem Kind.code_of_ofCode? {n : Nat} {kind : Kind} (h : Kind.ofCode? n = some kind) :
    kind.code = n := by
  obtain ⟨hlt, hget⟩ := List.getElem?_eq_some_iff.mp h
  have hall : ∀ i : Fin Kind.all.length, (Kind.all.get i).code = i := by decide
  exact hget ▸ hall ⟨n, hlt⟩

theorem ExceptionKind.code_of_ofCode? {n : Nat} {kind : ExceptionKind}
    (h : ExceptionKind.ofCode? n = some kind) : kind.code = n := by
  obtain ⟨hlt, hget⟩ := List.getElem?_eq_some_iff.mp h
  have hall : ∀ i : Fin ExceptionKind.all.length, (ExceptionKind.all.get i).code = i := by decide
  exact hget ▸ hall ⟨n, hlt⟩

namespace Value

variable {v w : Value} {u : View}

/-! ## The parts of a word -/

/-- Words are equal if they are as numbers. -/
theorem eq_iff_toNat : v = w ↔ v.word.toNat = w.word.toNat := by
  rw [UInt64.toNat_inj]
  constructor
  · exact congrArg Value.word
  · intro h
    cases v
    exact congrArg Value.mk h

/-- The lowest bit tells inline words from references. -/
theorem isInline_iff : v.isInline = true ↔ v.word.toNat % 2 = 1 := by
  rw [isInline, beq_iff_eq, ← UInt64.toNat_inj, UInt64.toNat_mod]
  rfl

theorem tagBits_eq : v.tagBits = v.word.toNat / 2 % 128 := by
  simp [tagBits, UInt64.toNat_mod, UInt64.toNat_div]

theorem toNat_payload : v.payload.toNat = v.word.toNat / 4294967296 := by
  have hlt := v.word.toNat_lt
  rw [payload, UInt64.toNat_toUInt32, UInt64.toNat_div]
  simp only [UInt64.reduceToNat]
  omega

/-- Whether the bits between the tag and the payload are clear. -/
def GapClear (v : Value) : Prop := ∀ i, 8 ≤ i → i < 32 → v.word.toNat.testBit i = false

/-- The gap is the 24 bits between the tag and the payload. -/
theorem gapClear_iff : v.GapClear ↔ v.word.toNat / 2 ^ 8 % 2 ^ 24 = 0 := by
  constructor
  · intro hclear
    refine Nat.eq_of_testBit_eq fun i => ?_
    rw [Nat.zero_testBit, Nat.testBit_mod_two_pow, Nat.testBit_div_two_pow]
    by_cases hi : i < 24
    · simp [hclear (i + 8) (by omega) (by omega)]
    · simp [hi]
  · intro hzero i hle hlt
    have hbit := congrArg (Nat.testBit · (i - 8)) hzero
    simp only [Nat.testBit_mod_two_pow, Nat.testBit_div_two_pow, Nat.zero_testBit,
      Bool.and_eq_false_iff, decide_eq_false_iff_not] at hbit
    rcases hbit with hbit | hbit
    · omega
    · rwa [Nat.sub_add_cancel hle] at hbit

/-- An inline word with a clear gap is made up of its kind and its payload. -/
theorem eq_ofInline_iff {kind : Kind} {p : UInt32} :
    v = ofInline kind p ↔
      v.isInline = true ∧ v.tagBits = kind.code ∧ v.payload = p ∧ v.GapClear := by
  have hcode : kind.code < 31 := by cases kind <;> decide
  have hp := p.toNat_lt
  rw [eq_iff_toNat, toNat_word_ofInline, isInline_iff, tagBits_eq, ← UInt32.toNat_inj,
    toNat_payload, gapClear_iff]
  omega

theorem toNat_word_ofSlot {slot : Nat} (hlt : slot < span32) :
    (ofSlot slot).word.toNat = 2 * slot := by
  unfold span32 at hlt
  simp [ofSlot, UInt64.toNat_mul]
  omega

theorem slot?_eq_none_iff : v.slot? = none ↔ v.isInline = true := by
  unfold slot?
  cases v.isInline <;> simp

/-- A reference holds its slot above the lowest bit, in 32 bits. -/
theorem slot?_eq_some_iff {slot : Nat} :
    v.slot? = some slot ↔ v.isInline = false ∧ slot = v.word.toNat / 2 % span32 := by
  unfold slot? span32
  cases v.isInline <;> simp [UInt64.toNat_mod, UInt64.toNat_div, eq_comm]

/-- An inline word has the kind that its tag is the code of, if that kind is inline. -/
theorem inlineKind?_eq_some_iff {kind : Kind} :
    v.inlineKind? = .ok (some kind) ↔
      v.isInline = true ∧ Kind.ofCode? v.tagBits = some kind ∧ kind.isInline = true := by
  unfold inlineKind?
  cases v.isInline with
  | false => simp
  | true => grind

/-! ## Decoding -/

/-- What a word stands for, kind by kind. -/
inductive Shows (v : Value) : View → Prop where
  | ref {slot : Nat} : v.slot? = some slot → Shows v (.ref slot)
  | smallInt {n : Int} : v.inlineKind? = .ok (some .smallInt) → v.signedPayload = n →
      Shows v (.smallInt n)
  | bool {b : Bool} : v.inlineKind? = .ok (some .bool) → (v.payload != 0) = b → Shows v (.bool b)
  | nil : v.inlineKind? = .ok (some .noneType) → Shows v .nil
  | cell {p : UInt32} : v.inlineKind? = .ok (some .cell) → v.payload = p → Shows v (.cell p)
  | native {p : UInt32} : v.inlineKind? = .ok (some .native) → v.payload = p → Shows v (.native p)
  | driver {p : UInt32} : v.inlineKind? = .ok (some .driver) → v.payload = p → Shows v (.driver p)
  | exception {kind : ExceptionKind} : v.inlineKind? = .ok (some .exception) →
      ExceptionKind.ofCode? v.payload.toNat = some kind → Shows v (.exception kind)

/-- A word that shows a view is decoded as it. -/
theorem Shows.view_eq (h : v.Shows u) : v.view = .ok u := by
  have hinline {kind : Kind} (hkind : v.inlineKind? = .ok (some kind)) : v.slot? = none :=
    slot?_eq_none_iff.mpr (inlineKind?_eq_some_iff.mp hkind).1
  cases h with
  | ref hslot => rw [view, hslot]
  | nil hkind =>
      rw [view, hinline hkind, hkind]
      rfl
  | smallInt hkind hp | bool hkind hp | cell hkind hp | native hkind hp | driver hkind hp =>
      rw [view, hinline hkind, hkind, ← hp]
      rfl
  | exception hkind hcode =>
      rw [view, hinline hkind, hkind]
      simp only [bind, Except.bind, hcode]
      rfl

/-- Decoding finds the view that a word shows, and no other. -/
theorem view_eq_ok_iff : v.view = .ok u ↔ v.Shows u := by
  refine ⟨fun h => ?_, Shows.view_eq⟩
  cases hslot : v.slot? with
  | some slot =>
      cases (Shows.ref hslot).view_eq.symm.trans h
      exact .ref hslot
  | none =>
      rw [view, hslot] at h
      obtain ⟨found, hkind, h⟩ := bind_eq_ok_iff.mp h
      split at h
      · cases h
        exact .smallInt hkind rfl
      · cases h
        exact .bool hkind rfl
      · cases h
        exact .nil hkind
      · cases h
        exact .cell hkind rfl
      · cases h
        exact .native hkind rfl
      · cases h
        exact .driver hkind rfl
      · split at h
        next kind hcode =>
          cases h
          exact .exception hkind hcode
        next => cases h
      · cases h

/-- Only a reference stands for a slot. -/
theorem Shows.isInline_eq_false_iff (h : v.Shows u) :
    v.isInline = false ↔ ∃ slot, u = .ref slot := by
  have hinline {kind : Kind} (hkind : v.inlineKind? = .ok (some kind)) : v.isInline = true :=
    (inlineKind?_eq_some_iff.mp hkind).1
  cases h with
  | ref hslot => simp [(slot?_eq_some_iff.mp hslot).1]
  | nil hkind => simp [hinline hkind]
  | smallInt hkind _ | bool hkind _ | cell hkind _ | native hkind _ | driver hkind _
  | exception hkind _ => simp [hinline hkind]

/-- The words that cannot be decoded: inline, and with tag bits that name no inline kind, or with
those of an exception and a payload that names none. -/
def Malformed (v : Value) : Prop :=
  v.isInline = true ∧ ((∀ kind, Kind.ofCode? v.tagBits = some kind → kind.isInline = false) ∨
    Kind.ofCode? v.tagBits = some .exception ∧ ExceptionKind.ofCode? v.payload.toNat = none)

/-- An inline word shows something, unless it is an exception of no known code. -/
theorem exists_shows {kind : Kind} (hkind : v.inlineKind? = .ok (some kind))
    (hcode : kind = .exception → ∃ e, ExceptionKind.ofCode? v.payload.toNat = some e) :
    ∃ u, v.Shows u := by
  obtain ⟨_, _, hinline⟩ := inlineKind?_eq_some_iff.mp hkind
  cases kind with
  | smallInt => exact ⟨_, .smallInt hkind rfl⟩
  | bool => exact ⟨_, .bool hkind rfl⟩
  | noneType => exact ⟨_, .nil hkind⟩
  | cell => exact ⟨_, .cell hkind rfl⟩
  | native => exact ⟨_, .native hkind rfl⟩
  | driver => exact ⟨_, .driver hkind rfl⟩
  | exception =>
      obtain ⟨e, he⟩ := hcode rfl
      exact ⟨_, .exception hkind he⟩
  | _ => cases hinline

theorem Malformed.inlineKind?_eq {kind : Kind} (h : v.Malformed)
    (hkind : v.inlineKind? = .ok (some kind)) :
    kind = .exception ∧ ExceptionKind.ofCode? v.payload.toNat = none := by
  obtain ⟨_, htag, hinline⟩ := inlineKind?_eq_some_iff.mp hkind
  rcases h.2 with hnone | ⟨hexception, hcode⟩
  · cases (hnone kind htag).symm.trans hinline
  · exact ⟨Option.some.inj (htag.symm.trans hexception), hcode⟩

/-- The words that cannot be decoded are the malformed ones. -/
theorem view_eq_error_iff : (∃ fault, v.view = .error fault) ↔ v.Malformed := by
  constructor
  · rintro ⟨fault, hfault⟩
    have hnone (u : View) (hu : v.Shows u) : False := by
      cases hfault.symm.trans hu.view_eq
    have hinline : v.isInline = true :=
      slot?_eq_none_iff.mp
        (Option.eq_none_iff_forall_ne_some.mpr fun _ hslot => hnone _ (.ref hslot))
    refine ⟨hinline, ?_⟩
    by_contra hwell
    push Not at hwell
    obtain ⟨⟨kind, htag, hkinline⟩, hcode⟩ := hwell
    have hkind : v.inlineKind? = .ok (some kind) :=
      inlineKind?_eq_some_iff.mpr ⟨hinline, htag, by simpa using hkinline⟩
    obtain ⟨u, hu⟩ := exists_shows hkind fun hexception =>
      Option.ne_none_iff_exists'.mp (hcode (hexception ▸ htag))
    exact hnone u hu
  · intro hmalformed
    cases hview : v.view with
    | error fault => exact ⟨fault, rfl⟩
    | ok u =>
        cases view_eq_ok_iff.mp hview with
        | ref hslot => cases (slot?_eq_some_iff.mp hslot).1.symm.trans hmalformed.1
        | nil hkind => cases (hmalformed.inlineKind?_eq hkind).1
        | exception hkind hcode => cases (hmalformed.inlineKind?_eq hkind).2.symm.trans hcode
        | smallInt hkind _ | bool hkind _ | cell hkind _ | native hkind _ | driver hkind _ =>
            cases (hmalformed.inlineKind?_eq hkind).1

/-! ## Encoding -/

/-- Whether a word has room for what is to be encoded. -/
def View.Encodable : View → Prop
  | .smallInt n => -2 ^ 30 ≤ n ∧ n < 2 ^ 30
  | .ref slot => slot < 2 ^ 32
  | _ => True

/-- Small integers are those of 31 bits in two's complement. -/
theorem fitsSmallInt_iff {n : Int} : fitsSmallInt n = true ↔ -2 ^ 30 ≤ n ∧ n < 2 ^ 30 := by
  rw [fitsSmallInt, Bool.and_eq_true, decide_eq_true_eq, decide_eq_true_eq, smallIntMin,
    smallIntMax]
  omega

/-- Reading a payload as a signed number undoes the encoding of one. -/
theorem signedPayload_ofInline {kind : Kind} {n : Int} (hmin : -2 ^ 30 ≤ n) (hmax : n < 2 ^ 30) :
    (ofInline kind (UInt32.ofNat (n % 4294967296).toNat)).signedPayload = n := by
  rw [signedPayload, payload_ofInline, UInt32.toNat_ofNat']
  split <;> omega

/-- What has room in a word is encoded by a word that stands for it. -/
theorem View.Encodable.shows (hu : u.Encodable) : ∃ v, u.pack = .ok v ∧ v.Shows u := by
  have hkind {kind : Kind} (hkind : kind.isInline = true) (p : UInt32) :=
    inlineKind?_ofInline hkind p
  cases u with
  | smallInt n =>
      exact ⟨_, if_pos (fitsSmallInt_iff.mpr hu),
        .smallInt (hkind rfl _) (signedPayload_ofInline hu.1 hu.2)⟩
  | bool b =>
      refine ⟨_, rfl, .bool (hkind rfl _) ?_⟩
      rw [Value.bool, payload_ofInline]
      cases b <;> rfl
  | nil => exact ⟨_, rfl, .nil (hkind rfl _)⟩
  | cell p => exact ⟨_, rfl, .cell (hkind rfl p) (payload_ofInline ..)⟩
  | native p => exact ⟨_, rfl, .native (hkind rfl p) (payload_ofInline ..)⟩
  | driver p => exact ⟨_, rfl, .driver (hkind rfl p) (payload_ofInline ..)⟩
  | exception kind =>
      have hcode : kind.code < 22 := by cases kind <;> decide
      refine ⟨_, rfl, .exception (hkind rfl _) ?_⟩
      rw [Value.exception, payload_ofInline,
        UInt32.toNat_ofNat_of_lt' (by unfold UInt32.size; omega)]
      exact kind.ofCode?_code
  | ref slot => exact ⟨_, rfl, .ref (slot?_ofSlot hu)⟩

/-! ## Canonical words -/

/-- Whether the payload of an inline word is one that encoding gives to its kind. -/
def PayloadInRange (v : Value) : Kind → Prop
  | .smallInt => -2 ^ 30 ≤ v.signedPayload ∧ v.signedPayload < 2 ^ 30
  | .bool => v.payload = 0 ∨ v.payload = 1
  | .noneType => v.payload = 0
  | _ => True

/-- A reference of 33 bits, or an inline word with a clear gap and a payload in range. -/
inductive Canonical (v : Value) : Prop where
  | ref : v.isInline = false → v.word.toNat < 2 ^ 33 → Canonical v
  | inline {kind : Kind} : v.isInline = true → Kind.ofCode? v.tagBits = some kind → v.GapClear →
      v.PayloadInRange kind → Canonical v

/-- A reference is canonical if no bit is set above its slot. -/
theorem canonical_ref_iff (hinline : v.isInline = false) :
    v.Canonical ↔ v.word.toNat < 2 ^ 33 := by
  constructor
  · rintro (⟨_, hlt⟩ | ⟨hodd, _⟩)
    · exact hlt
    · cases hinline.symm.trans hodd
  · exact .ref hinline

/-- An inline word is canonical if its gap is clear and its payload is one that its kind has. -/
theorem canonical_inline_iff {kind : Kind} (hkind : v.inlineKind? = .ok (some kind)) :
    v.Canonical ↔ v.GapClear ∧ v.PayloadInRange kind := by
  obtain ⟨hinline, htag, _⟩ := inlineKind?_eq_some_iff.mp hkind
  constructor
  · rintro (⟨heven, _⟩ | ⟨_, htag', hgap, hrange⟩)
    · cases heven.symm.trans hinline
    · cases htag.symm.trans htag'
      exact ⟨hgap, hrange⟩
  · rintro ⟨hgap, hrange⟩
    exact .inline hinline htag hgap hrange

/-- An inline word that is encoded anew with a payload comes back if its gap is clear and the
payload is its own. -/
theorem ofInline_eq_iff {kind : Kind} {p : UInt32} (hkind : v.inlineKind? = .ok (some kind)) :
    (.ok (ofInline kind p) : Except Fault Value) = .ok v ↔ v.GapClear ∧ v.payload = p := by
  obtain ⟨hinline, htag, _⟩ := inlineKind?_eq_some_iff.mp hkind
  rw [Except.ok.injEq, eq_comm, eq_ofInline_iff, Kind.code_of_ofCode? htag]
  simp [hinline, and_comm]

/-- Encoding what a word stands for brings back the canonical words and no others. -/
theorem Shows.pack_eq_iff (h : v.Shows u) : u.pack = .ok v ↔ v.Canonical := by
  cases h with
  | ref hslot =>
      obtain ⟨heven, rfl⟩ := slot?_eq_some_iff.mp hslot
      have hbit := mt isInline_iff.mpr (Bool.not_eq_true _ ▸ heven)
      rw [canonical_ref_iff heven, View.pack, Except.ok.injEq, eq_comm, eq_iff_toNat,
        toNat_word_ofSlot (Nat.mod_lt _ (by decide)), span32]
      omega
  | smallInt hkind hn =>
      subst hn
      have hp := v.payload.toNat_lt
      rw [canonical_inline_iff hkind, PayloadInRange, ← fitsSmallInt_iff, View.pack, Value.smallInt]
      split
      next hfits =>
        rw [ofInline_eq_iff hkind, ← UInt32.toNat_inj, UInt32.toNat_ofNat', signedPayload]
        refine and_congr_right fun _ => iff_of_true ?_ hfits
        split <;> omega
      next hfits => simp [hfits]
  | bool hkind hb =>
      subst hb
      rw [canonical_inline_iff hkind, View.pack, Value.bool, ofInline_eq_iff hkind, PayloadInRange]
      by_cases hzero : v.payload = 0 <;> simp [hzero, bne]
  | nil hkind =>
      rw [canonical_inline_iff hkind]
      exact ofInline_eq_iff hkind
  | cell hkind hp | native hkind hp | driver hkind hp =>
      rw [canonical_inline_iff hkind]
      exact (ofInline_eq_iff hkind).trans (and_congr_right fun _ => iff_of_true hp trivial)
  | exception hkind hcode =>
      rw [canonical_inline_iff hkind]
      refine (ofInline_eq_iff hkind).trans (and_congr_right fun _ => iff_of_true ?_ trivial)
      rw [ExceptionKind.code_of_ofCode? hcode, UInt32.ofNat_toNat]

/-- Words are a faithful code. What has room in a word is given back when the word that encodes it
is decoded. So different views have different words, and no inline one has the word of a reference.
Decoding faults at the malformed words and at no others. Encoding what was decoded gives the
canonical words back, and no others. -/
theorem code_faithful :
    (∀ u : View, u.Encodable → ∃ v, u.pack = .ok v ∧ v.view = .ok u ∧
      (v.isInline = false ↔ ∃ slot, u = .ref slot)) ∧
    (∀ u u' : View, u.Encodable → u'.Encodable → u.pack = u'.pack → u = u') ∧
    (∀ v : Value, (∃ fault, v.view = .error fault) ↔ v.Malformed) ∧
    ∀ (v : Value) (u : View), v.view = .ok u → (u.pack = .ok v ↔ v.Canonical) := by
  refine ⟨fun u hu => ?_, fun u u' hu hu' hpack => ?_, fun v => view_eq_error_iff,
    fun v u hview => (view_eq_ok_iff.mp hview).pack_eq_iff⟩
  · obtain ⟨v, hpack, hshows⟩ := hu.shows
    exact ⟨v, hpack, hshows.view_eq, hshows.isInline_eq_false_iff⟩
  · obtain ⟨v, hv, hshows⟩ := hu.shows
    obtain ⟨v', hv', hshows'⟩ := hu'.shows
    cases hv.symm.trans (hpack.trans hv')
    exact Except.ok.inj (hshows.view_eq.symm.trans hshows'.view_eq)

/-- A negative number and its word, a word with the tag bits of no kind, and a word with a payload
that no truth value is encoded with. -/
theorem code_faithful_samples :
    (∃ v, (View.smallInt (-5)).pack = .ok v ∧ v.view = .ok (.smallInt (-5))) ∧
    (∃ fault, (⟨0xff⟩ : Value).view = .error fault) ∧
    (⟨0x200000007⟩ : Value).view = .ok (.bool true) ∧
    (View.bool true).pack ≠ .ok ⟨0x200000007⟩ := by
  obtain ⟨hpack, _, hfault, hcanonical⟩ := code_faithful
  have hview : (⟨0x200000007⟩ : Value).view = .ok (.bool true) := by decide
  refine ⟨?_, (hfault _).mpr ⟨by decide, Or.inl ?_⟩, hview, ?_⟩
  · obtain ⟨v, hv, hback, _⟩ := hpack (.smallInt (-5)) ⟨by decide, by decide⟩
    exact ⟨v, hv, hback⟩
  · have htag : Kind.ofCode? (⟨0xff⟩ : Value).tagBits = none := by decide
    simp [htag]
  · have hkind : (⟨0x200000007⟩ : Value).inlineKind? = .ok (some .bool) := by decide
    rw [Ne, hcanonical _ _ hview, canonical_inline_iff hkind]
    rintro ⟨_, hzero | hone⟩
    · exact absurd hzero (by decide)
    · exact absurd hone (by decide)

end Value

end ObjectHeap
