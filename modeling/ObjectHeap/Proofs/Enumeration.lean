import ObjectHeap.Proofs.Fitting
import ObjectHeap.Proofs.SequenceRuns

/-! # Enumeration

An iterator returns the items of what it was made for, each once and in order, as long as it is
kept alive and nothing is done to what it goes through. Whatever else happens in between does not
matter: neither other operations and collections, nor calls that are refused for want of memory.

The position of an iterator means something different for texts, ranges, sequences and tables. What
they have in common is that from each position that is reached a list of items *leads on*.
-/

namespace ObjectHeap

/-! ## Sources -/

/-- An item of an iteration: a value that is there already, or a string of one character or an
integer, which have to be made. -/
inductive Item where
  | value (v : Value)
  | char (c : Char)
  | int (n : Int64)

/-- The payload of the block that has to be made for an item, if any. -/
def Item.payload? : Item → Option Body
  | .value _ => none
  | .char c => some (.bytes (BoundedSeq.filled (String.singleton c).toUTF8.data))
  | .int n => if Value.fitsSmallInt n.toInt then none else some (.integer n)

/-- What an iterator goes through. -/
inductive Source where
  | text (chars : List Char)
  | range (r : IntRange) (len : Nat)
  | elements (items : List Value)
  | table (t : ProbeTable)

namespace Source

/-- The item at a position and the position after it. -/
def step? : Source → Nat → Option (Item × Nat)
  | .text chars, position =>
    (charAtByte? chars position).map fun c => (.char c, position + c.utf8Size)
  | .range r len, position =>
    if position < len then some (.int (r.member position), position + 1) else none
  | .elements items, position => items[position]?.map fun v => (.value v, position + 1)
  | .table t, position =>
    (t.nextOccupied? position).map fun (index, key, _) => (.value key, index + 1)

/-- All items. -/
def items : Source → List Item
  | .text chars => chars.map .char
  | .range r len => (List.range len).map fun index => .int (r.member index)
  | .elements items => items.map .value
  | .table t => t.toList.map fun entry => .value entry.2.1

/-- The items that lead on from a position to the end. -/
inductive Leads (s : Source) : Nat → List Item → Prop
  | done {position : Nat} : s.step? position = none → Leads s position []
  | next {position after : Nat} {item : Item} {items : List Item} :
      s.step? position = some (item, after) → Leads s after items →
      Leads s position (item :: items)

/-- Where positions are indices, what leads on is the rest of the list. -/
theorem leads_of_getElem? {s : Source} {items : List Item}
    (hstep : ∀ index, s.step? index = items[index]?.map fun item => (item, index + 1))
    (index : Nat) : s.Leads index (items.drop index) := by
  generalize hrest : items.drop index = rest
  induction rest generalizing index with
  | nil =>
      refine .done ?_
      rw [hstep, List.getElem?_eq_none (List.drop_eq_nil_iff.mp hrest), Option.map_none]
  | cons item rest ih =>
      have hitem : items[index]? = some item := by
        rw [← List.head?_drop, hrest, List.head?_cons]
      refine .next (by rw [hstep, hitem, Option.map_some]) (ih (index + 1) ?_)
      rw [← List.tail_drop, hrest, List.tail_cons]

end Source

/-- At the byte after some characters starts the character that follows them. -/
theorem charAtByte?_append (before after : List Char) :
    charAtByte? (before ++ after) (before.map Char.utf8Size).sum = after.head? := by
  induction before with
  | nil => cases after <;> rfl
  | cons c before ih =>
      obtain ⟨size, hsize⟩ := Nat.exists_eq_succ_of_ne_zero (Nat.ne_of_gt c.utf8Size_pos)
      have hoffset : ((c :: before).map Char.utf8Size).sum =
          size + (before.map Char.utf8Size).sum + 1 := by
        rw [List.map_cons, List.sum_cons, hsize]
        omega
      rw [hoffset, List.cons_append, charAtByte?, if_neg (by omega), ← ih]
      · congr 1
        omega
      · simp

theorem Source.leads_text (before after : List Char) :
    (Source.text (before ++ after)).Leads (before.map Char.utf8Size).sum (after.map .char) := by
  induction after generalizing before with
  | nil => exact .done (by rw [step?, charAtByte?_append]; rfl)
  | cons c after ih =>
      have hrest := ih (before ++ [c])
      rw [List.append_assoc, List.singleton_append] at hrest
      refine .next ?_ hrest
      rw [step?, charAtByte?_append]
      simp

/-- The occupied slots from a position on are the next one and those after it. -/
theorem ProbeTable.nextOccupied?_cases (t : ProbeTable) (position : Nat) :
    t.nextOccupied? position = none ∧
        (t.entries.toList.drop position).filterMap Entry.content? = [] ∨
      ∃ index hash key value, t.nextOccupied? position = some (index, key, value) ∧
        (t.entries.toList.drop position).filterMap Entry.content? =
          (hash, key, value) :: (t.entries.toList.drop (index + 1)).filterMap Entry.content? := by
  unfold nextOccupied?
  generalize hsteps : t.capacity - position = steps
  fun_induction nextOccupied?.go t steps position with
  | case1 position =>
      refine Or.inl ⟨rfl, ?_⟩
      rw [List.drop_of_length_le (by rw [Array.length_toList]; exact Nat.le_of_sub_eq_zero hsteps)]
      rfl
  | case2 steps position hash key value hentry =>
      refine Or.inr ⟨position, hash, key, value, rfl, ?_⟩
      rw [List.drop_eq_getElem?_toList_append, Array.getElem?_toList, hentry]
      rfl
  | case3 steps position hother ih =>
      have hlt : position < t.entries.size := Nat.lt_of_sub_eq_succ hsteps
      have hentry : t.entries[position]? = some t.entries[position] := Array.getElem?_eq_getElem hlt
      have hvacant : t.entries[position].content? = none := by
        cases hfound : t.entries[position] with
        | occupied hash key value => exact (hother hash key value (hfound ▸ hentry)).elim
        | _ => rfl
      rw [List.drop_eq_getElem?_toList_append, Array.getElem?_toList, hentry, Option.toList_some,
        List.singleton_append, List.filterMap_cons_none hvacant]
      exact ih (by omega)

theorem Source.leads_table (t : ProbeTable) (position : Nat) :
    (Source.table t).Leads position
      (((t.entries.toList.drop position).filterMap Entry.content?).map
        fun entry => .value entry.2.1) := by
  generalize hrest : (t.entries.toList.drop position).filterMap Entry.content? = rest
  induction rest generalizing position with
  | nil =>
      rcases t.nextOccupied?_cases position with ⟨hnone, _⟩ | ⟨_, _, _, _, _, hcons⟩
      · exact .done (by rw [step?, hnone]; rfl)
      · cases hrest.symm.trans hcons
  | cons entry rest ih =>
      rcases t.nextOccupied?_cases position with ⟨_, hnil⟩ | ⟨index, hash, key, value, hnext, hcons⟩
      · cases hrest.symm.trans hnil
      · cases hrest.symm.trans hcons
        exact .next (by rw [step?, hnext]; rfl) (ih (index + 1) rfl)

/-- From the start all items lead on. -/
theorem Source.leads_items (s : Source) : s.Leads 0 s.items := by
  cases s with
  | text chars => exact leads_text [] chars
  | range r len =>
      refine leads_of_getElem? (fun index => ?_) 0
      rw [step?, List.getElem?_map]
      by_cases hlt : index < len
      · rw [if_pos hlt, List.getElem?_range hlt]
        rfl
      · rw [if_neg hlt, List.getElem?_eq_none (by simpa using hlt)]
        rfl
  | elements values =>
      refine leads_of_getElem? (fun index => ?_) 0
      rw [step?, List.getElem?_map, Option.map_map]
      rfl
  | table t =>
      rw [items, t.toList_eq]
      exact leads_table t 0

/-! ## What is read without an iterator -/

/-- Whether a block is there to be gone through, and what is. A string has to be a text. -/
inductive Block.Provides (b : Block) : Source → Prop
  | text {seq : BoundedSeq UInt8} {text : String} : b.header.kind = .string →
      b.body = .bytes seq → String.fromUTF8? ⟨seq.toArray⟩ = some text →
      Provides b (.text text.toList)
  | range {r : IntRange} {len : Nat} : b.header.kind = .range → b.body = .range r →
      r.step ≠ 0 → r.len = .ok len → Provides b (.range r len)
  | elements : b.header.kind.isSequence = true → b.header.kind ≠ .string →
      b.body.IsSequence → b.body.Valid → Provides b (.elements b.body.elements)
  | table {t : ProbeTable} : b.header.kind.isHash = true → b.body = .hash t →
      Provides b (.table t)

theorem Block.Provides.congr {b b' : Block} {s : Source} (hp : b.Provides s)
    (hkind : b'.header.kind = b.header.kind) (hbody : b'.body = b.body) : b'.Provides s := by
  cases hp with
  | text hstring hbytes htext => exact .text (hkind.trans hstring) (hbody.trans hbytes) htext
  | range hrange hr hstep hlen => exact .range (hkind.trans hrange) (hbody.trans hr) hstep hlen
  | elements hseq hstring hform hvalid =>
      rw [← hbody]
      exact .elements (hkind ▸ hseq) (hkind ▸ hstring) (hbody ▸ hform) (hbody ▸ hvalid)
  | table hhash ht => exact .table (hkind ▸ hhash) (hbody.trans ht)

/-- A number in a value word is read back. -/
theorem Value.view_of_smallInt {n : Int} {w : Value} (hn : Value.smallInt n = .ok w) :
    w.view = .ok (.smallInt n) := by
  rw [Value.smallInt] at hn
  split at hn
  next hfits =>
    cases hn
    obtain ⟨hmin, hmax⟩ := Bool.and_eq_true_iff.mp hfits
    have hmin : -1073741824 ≤ n := of_decide_eq_true hmin
    have hmax : n ≤ 1073741823 := of_decide_eq_true hmax
    rw [view_ofInline_smallInt, signedPayload, payload_ofInline, UInt32.toNat_ofNat']
    congr 2
    split <;> omega
  next => cases hn

theorem Kind.isInline_of_iterable {kind : Kind}
    (hkind : kind = .range ∨ kind.isSequence = true ∨ kind.isHash = true) :
    kind.isInline = false := by
  revert hkind
  cases kind <;> decide

namespace Heap

/-- Whether a value can be iterated over. -/
def Iterable (h : Heap) (v : Value) : Prop :=
  ∃ kind, h.kindOf v = .ok kind ∧
    (kind = .range ∨ kind.isSequence = true ∨ kind.isHash = true) ∧
    (kind = .string → ∃ text, h.text v = .ok text)

/-- The items of a value, as they are read without an iterator. -/
inductive Offers (h : Heap) (v : Value) : List Item → Prop
  | text {text : String} : h.text v = .ok text → Offers h v (text.toList.map .char)
  | range {slot : Nat} {r : IntRange} {numbers : List Int64} : v.slot? = some slot →
      h.body slot = .ok (.range r) → r.len = .ok numbers.length →
      (∀ index n, numbers[index]? = some n → r.nth? index = .ok (some n)) →
      Offers h v (numbers.map .int)
  | elements {kind : Kind} {values : List Value} : h.kindOf v = .ok kind →
      kind.isSequence = true → kind ≠ .string → h.len v = .ok values.length →
      (∀ index w, values[index]? = some w → h.seqGet v index = .ok w) →
      Offers h v (values.map .value)
  | keys {entries : List (Value × Value)} : h.hashEntries v = .ok entries →
      Offers h v (entries.map fun entry => .value entry.1)

/-- Whether a value of a heap is an item. -/
def Presents (h : Heap) (w : Value) : Item → Prop
  | .value v => w = v
  | .char c => h.text w = .ok (String.singleton c)
  | .int n => (h.kindOf w = .ok .smallInt ∨ h.kindOf w = .ok .integer) ∧ h.intValue w = .ok n

section Digest

variable [Digest] {admits among : Value → Prop} {h h' start : Heap} {roots : List Value}
  {v w iterator iterable : Value} {slot : Nat} {b : Block} {s : Source} {left : List Item}

omit [Digest] in
theorem text_eq {seq : BoundedSeq UInt8} {text : String} (hslot : v.slot? = some slot)
    (hb : h.block? slot = some b) (hkind : b.header.kind = .string) (hbody : b.body = .bytes seq)
    (htext : String.fromUTF8? ⟨seq.toArray⟩ = some text) : h.text v = .ok text := by
  have hslot' := expectSlot_eq hslot hb "str" (· == .string) (beq_iff_eq.mpr hkind)
  have hblock := expectBlock_eq hslot hb "byte sequence" (·.shape == .byteSequence)
    (by rw [hkind]; rfl)
  simp only [Heap.text, Heap.bytes, hslot', hblock, hbody, htext, bind, Except.bind, pure,
    Except.pure]

omit [Digest] in
/-- What a block provides is what its value offers. -/
theorem offers_items (hslot : v.slot? = some slot) (hb : h.block? slot = some b)
    (hp : b.Provides s) : h.Offers v s.items := by
  cases hp with
  | text hkind hbody htext => exact .text (text_eq hslot hb hkind hbody htext)
  | @range r len hkind hbody hstep hlen =>
      rw [show Source.items (.range r len) = ((List.range len).map r.member).map .int by
        simp [Source.items]]
      refine .range hslot ((body_eq hb).trans (congrArg _ hbody)) (by simpa using hlen)
        fun index n hn => ?_
      obtain ⟨hlt, rfl⟩ := List.getElem?_eq_some_iff.mp hn
      rw [List.length_map, List.length_range] at hlt
      rw [r.nth?_eq hstep hlen, if_pos hlt, List.getElem_map, List.getElem_range]
  | elements hkind hstring hform hvalid =>
      refine .elements (kindOf_eq hslot hb) hkind hstring (len_of_isSequence hslot hb hform hvalid)
        fun index w hw => ?_
      rw [seqGet_eq hslot hb hkind hform hvalid, hw]
  | @table t hkind hbody =>
      rw [show Source.items (.table t) = (t.toList.map Prod.snd).map fun entry => .value entry.1 by
        simp [Source.items]]
      exact .keys (hashEntries_eq hslot hb hkind hbody)

/-- What a text offers are its characters. -/
theorem Offers.eq_of_text {items : List Item} {text : String} (hoffers : h.Offers v items)
    (hs : h.Sound admits 0) (hv : h.Usable admits v) (htext : h.text v = .ok text) :
    items = text.toList.map .char := by
  obtain ⟨slot, b, seq, hslot, hb, hkind, hbody, _⟩ := (text_gives hs hv).result htext
  cases hoffers with
  | text htext' =>
      cases htext.symm.trans htext'
      rfl
  | range hslot' hrange =>
      cases hslot.symm.trans hslot'
      rw [body_eq hb, hbody] at hrange
      cases hrange
  | elements hkind' _ hother =>
      cases (kindOf_eq hslot hb).symm.trans hkind'
      exact absurd hkind hother
  | keys hentries =>
      have hrefused : h.expectSlot v "dict or set" Kind.isHash =
          .error (.refused (.typeMismatch "dict or set" .string)) := by
        rw [expectSlot, kindOf_eq hslot hb, hkind, hslot]
        rfl
      rw [hashEntries, hrefused] at hentries
      cases hentries

/-- A value that can be iterated over refers to a block that provides something. -/
theorem Iterable.provides (hv : h.Iterable v) (hs : h.Sound admits 0)
    (husable : h.Usable admits v) :
    ∃ slot b s, v.slot? = some slot ∧ h.block? slot = some b ∧ b.Provides s := by
  obtain ⟨kind, hkind, hform, htext⟩ := hv
  cases hslot : v.slot? with
  | none =>
      have hinline := isInline_of_kindOf hslot hkind
      rw [Kind.isInline_of_iterable hform] at hinline
      cases hinline
  | some slot =>
      obtain ⟨b, hb⟩ := husable.block? hslot
      cases (kindOf_eq hslot hb).symm.trans hkind
      have hfits := hs.coherent.fits slot b hb
      have hvalid := hs.coherent.valid slot b hb
      refine ⟨slot, b, ?_⟩
      rcases hform with hrange | hseq | hhash
      · obtain ⟨r, hbody⟩ := Body.exists_range (hrange ▸ hfits)
        have hstep : r.step ≠ 0 := by
          rw [hbody] at hvalid
          exact hvalid
        obtain ⟨len, hlen⟩ := r.exists_len hstep
        exact ⟨_, rfl, hb, .range hrange hbody hstep hlen⟩
      · by_cases hstring : b.header.kind = .string
        · obtain ⟨text, htext⟩ := htext hstring
          obtain ⟨_, _, seq, hslot', hb', _, hbody, hutf8⟩ := (text_gives hs husable).result htext
          cases hslot.symm.trans hslot'
          cases hb.symm.trans hb'
          exact ⟨_, rfl, hb, .text hstring hbody hutf8⟩
        · exact ⟨_, rfl, hb, .elements hseq hstring (Body.isSequence_of_fits hfits hseq) hvalid⟩
      · obtain ⟨t, hbody⟩ := Body.exists_table hfits hhash
        exact ⟨_, rfl, hb, .table hhash hbody⟩

/-! ## Making items -/

omit [Digest] in
/-- What the making of an item leaves: a new value which is the item, whatever becomes of the
blocks of others. -/
structure Crafted (h : Heap) (starts : List Value) (item : Item) (w : Value) (h' : Heap) :
    Prop where
  fresh : h.Fresh starts h' w
  presents : ∀ h'' : Heap, (∀ s, w.slot? = some s → h''.block? s = h'.block? s) →
    h''.Presents w item

/-- Whether an item cannot be made: it needs a block for which what is kept leaves no room. -/
def Lacks (h : Heap) (starts : List Value) (item : Item) : Prop :=
  ∃ body, item.payload? = some body ∧ ¬ h.SpareRun starts body.blockSize

omit [Digest] in
theorem spareRun_protectAll {values starts : List Value} {n : Nat} :
    (h.protectAll values).SpareRun starts n ↔ h.SpareRun (starts ++ values) n := by
  simp only [SpareRun, Spare, held_protectAll]
  exact Iff.rfl

/-- A block that refers to nothing is made, unless what is kept leaves no room for it. -/
theorem allocate_leaf_settles (hs : h.Sound admits 0) (hroots : ∀ w ∈ roots, h.Usable admits w)
    {kind : Kind} {body : Body} (ha : h.Accepts admits kind body) (hleaf : body.edges = []) :
    Yields among (allocate roots kind body) h
      (fun v h' => ∃ slot, v.slot? = some slot ∧ h.Allocated admits roots kind body slot h')
      fun refusal _ => refusal.isOutOfMemory = true ∧ ¬ h.SpareRun roots body.blockSize := by
  have hyields : Yields among (allocate roots kind body) h _ _ := allocate_yields hs hroots ha
  have hsettles : Yields among (allocate roots kind body) h _ _ :=
    allocate_settles hs.consistent hs.coherent.edgesLive
      (fun v hv => (hs.coherent.registers_usable v hv).1) (fun v hv => (hroots v hv).1) ha.fits
      (by simp [hleaf])
  rw [hleaf, List.append_nil] at hyields hsettles
  refine (hyields.and hsettles).mono (fun _ _ hq => hq.1) ?_
  rintro refusal h' ⟨⟨hmemory, _⟩, _, ⟨hlarge, _⟩ | ⟨_, hshort, _⟩⟩
  · refine ⟨hmemory, fun ⟨first, hrun⟩ => ?_⟩
    have hlast := (hrun (first + body.blockSize - 1) (by omega) (by omega)).1
    omega
  · exact ⟨hmemory, hshort⟩

theorem newString_crafts (hs : h.Sound admits 0) (hroots : ∀ w ∈ roots, h.Usable admits w)
    (c : Char) :
    Yields among (newString roots (String.singleton c)) h (h.Crafted roots (.char c))
      fun refusal _ => refusal.isOutOfMemory = true ∧ h.Lacks roots (.char c) := by
  refine (allocate_leaf_settles hs hroots (accepts_bytes rfl (BoundedSeq.valid_filled _)) rfl).mono
    (fun w h' hw => ?_) fun _ _ hd => ⟨hd.1, _, rfl, hd.2⟩
  obtain ⟨slot, hslot, hnew⟩ := hw
  obtain ⟨b, hb, hkind, hbody, _⟩ := hnew.block
  refine ⟨hnew.fresh_of_slot? hslot,
    fun h'' hsame => text_eq hslot ((hsame slot hslot).trans hb) hkind hbody ?_⟩
  rw [show (BoundedSeq.filled (String.singleton c).toUTF8.data).toArray =
    (String.singleton c).toUTF8.data by simp [BoundedSeq.filled, BoundedSeq.toArray]]
  exact dif_pos (String.singleton c).isValidUTF8

theorem newInt_crafts (hs : h.Sound admits 0) (hroots : ∀ w ∈ roots, h.Usable admits w)
    (n : Int64) :
    Yields among (newInt roots n) h (h.Crafted roots (.int n))
      fun refusal _ => refusal.isOutOfMemory = true ∧ h.Lacks roots (.int n) := by
  unfold newInt
  split
  next hfits =>
    have hsmall := smallInt_of_fits hfits
    have hslot := Value.slot?_ofInline .smallInt (UInt32.ofNat (n.toInt % 4294967296).toNat)
    refine Yields.lift_eq hsmall ⟨fun s b hs => ?_, fun h'' _ => ⟨Or.inl ?_, ?_⟩⟩
    · cases hslot.symm.trans hs
    · rw [kindOf, hslot, Value.inlineKind?_ofInline rfl]
      rfl
    · rw [intValue, number?, Value.view_of_smallInt hsmall]
      exact congrArg Except.ok (Int64.ofInt_toInt n)
  next hwide =>
    refine (allocate_leaf_settles hs hroots (accepts_integer n) rfl).mono (fun w h' hw => ?_)
      fun _ _ hd => ⟨hd.1, _, if_neg hwide, hd.2⟩
    obtain ⟨slot, hslot, hnew⟩ := hw
    obtain ⟨b, hb, hkind, hbody, _⟩ := hnew.block
    refine ⟨hnew.fresh_of_slot? hslot, fun h'' hsame => ?_⟩
    have hb' := (hsame slot hslot).trans hb
    refine ⟨Or.inr (hkind ▸ kindOf_eq hslot hb'), ?_⟩
    rw [intValue, number?_ref hslot hb', hbody]
    rfl

/-! ## The next item -/

/-- What looking for the next item leaves. If there is none, nothing has happened. -/
inductive Fetched (h : Heap) (slot : Nat) (h' : Heap) :
    Option (Item × Nat) → Option (Value × Nat) → Prop
  | none : h' = h → Fetched h slot h' none none
  | some {item : Item} {w : Value} {after : Nat} :
      (∀ h'' : Heap, (∀ s, s ≠ slot → h''.block? s = h'.block? s) → h''.Presents w item) →
      Fetched h slot h' (some (item, after)) (some (w, after))

omit [Digest] in
/-- An item made for an iterator, with the iterator kept alive meanwhile. -/
theorem makeItem_fetches (hslot : iterator.slot? = some slot) (hb : h.block? slot = some b)
    {make : HeapM Value} {item : Item}
    (hmake : Yields among make (h.protectAll [iterator])
      ((h.protectAll [iterator]).Crafted roots item) fun refusal _ =>
        refusal.isOutOfMemory = true ∧ (h.protectAll [iterator]).Lacks roots item) (after : Nat) :
    Yields among (do
      let w ← protecting [iterator] make
      return some (w, after)) h
      (fun found h' => h.Fetched slot h' (some (item, after)) found)
      fun refusal _ => refusal.isOutOfMemory = true ∧ h.Lacks (roots ++ [iterator]) item := by
  refine Yields.bind (yields_protecting (P := fun w h' => h.Crafted (roots ++ [iterator]) item w h')
    hmake (fun w h' hw => ⟨hw.fresh.unprotect, hw.presents⟩) ?_) fun w h' hw => ?_
  · rintro refusal h' ⟨hmemory, body, hbody, hshort⟩
    exact ⟨hmemory, body, hbody, spareRun_protectAll.not.mp hshort⟩
  · refine Yields.pure (.some fun h'' hsame => hw.presents h'' fun s hs => hsame s ?_)
    rintro rfl
    have hheld : h.Held (roots ++ [iterator]) s := .start (by simp) hslot
    exact hw.fresh.not_held hs hb hheld

/-- What is read from a value at a position is what its block provides there. It is refused only for
want of memory. -/
theorem itemAt_fetches (hs : h.Sound admits 0) (hroots : ∀ w ∈ roots, h.Usable admits w)
    (hiterator : h.Usable admits iterator) {ib : Block} (hislot : iterator.slot? = some slot)
    (hib : h.block? slot = some ib) {vslot : Nat} (hslot : iterable.slot? = some vslot)
    (hb : h.block? vslot = some b) (hp : b.Provides s) (position : Nat) :
    Yields among (itemAt roots iterator iterable position) h
      (fun found h' => h.Fetched slot h' (s.step? position) found)
      fun refusal _ => refusal.isOutOfMemory = true ∧
        ∃ item after, s.step? position = some (item, after) ∧
          h.Lacks (roots ++ [iterator]) item := by
  have hsound : (h.protectAll [iterator]).Sound admits 0 := hs.protectAll (by simpa using hiterator)
  refine Yields.get (Yields.look_eq (kindOf_eq hslot hb) ?_)
  rw [hslot]
  dsimp only
  cases hp with
  | @text seq text hkind hbody htext =>
      rw [if_pos hkind]
      refine Yields.read_eq (text_eq hslot hb hkind hbody htext) ?_
      cases hchar : charAtByte? text.toList position with
      | none => exact Yields.pure (by rw [Source.step?, hchar]; exact .none rfl)
      | some c =>
          rw [Source.step?, hchar]
          exact (makeItem_fetches hislot hib (newString_crafts hsound hroots c) _).mono
            (fun _ _ hf => hf) fun _ _ hd => ⟨hd.1, _, _, rfl, hd.2⟩
  | @range r len hkind hbody hstep hlen =>
      rw [if_neg (by rw [hkind]; decide), if_pos hkind]
      refine Yields.look_eq (body_eq hb) ?_
      rw [hbody]
      refine Yields.look_eq (r.nth?_eq hstep hlen position) ?_
      rw [Source.step?]
      by_cases hlt : position < len
      · rw [if_pos hlt, if_pos hlt]
        exact (makeItem_fetches hislot hib (newInt_crafts hsound hroots (r.member position)) _).mono
          (fun _ _ hf => hf) fun _ _ hd => ⟨hd.1, _, _, rfl, hd.2⟩
      · rw [if_neg hlt, if_neg hlt]
        exact Yields.pure (.none rfl)
  | elements hkind hstring hform hvalid =>
      have hrange : b.header.kind ≠ .range := fun hrange => by rw [hrange] at hkind; cases hkind
      rw [if_neg hstring, if_neg hrange, if_pos hkind, Source.step?]
      refine Yields.read_eq (len_of_isSequence hslot hb hform hvalid) ?_
      have hget := seqGet_eq hslot hb hkind hform hvalid position
      cases hitem : b.body.elements[position]? with
      | none =>
          rw [if_pos (List.getElem?_eq_none_iff.mp hitem)]
          exact Yields.pure (.none rfl)
      | some w =>
          rw [if_neg (Nat.not_le.mpr (List.getElem?_eq_some_iff.mp hitem).1)]
          rw [hitem] at hget
          exact Yields.read_eq hget (Yields.pure (.some fun _ _ => rfl))
  | @table t hkind hbody =>
      obtain ⟨hstring, hrange, hseq⟩ : b.header.kind ≠ .string ∧ b.header.kind ≠ .range ∧
          b.header.kind.isSequence ≠ true := by
        revert hkind
        cases b.header.kind <;> decide
      rw [if_neg hstring, if_neg hrange, if_neg hseq, if_pos hkind, Source.step?]
      refine Yields.look_eq (table_eq hb hbody) (Yields.pure ?_)
      rcases t.nextOccupied? position with _ | ⟨index, key, value⟩
      · exact .none rfl
      · exact .some fun _ _ => rfl

/-- Whether there is an iterator in a slot with some items left, and the value that it goes through
is beside it. -/
structure Stands (h : Heap) (slot : Nat) (iterable : Value) (s : Source) (left : List Item) :
    Prop where
  iterator : ∃ b position, h.block? slot = some b ∧ b.header.kind = .iterator ∧
    b.body = .iterator ⟨iterable, position⟩ ∧ s.Leads position left
  iterable : ∃ vslot b, iterable.slot? = some vslot ∧ vslot ≠ slot ∧ h.block? vslot = some b ∧
    b.Provides s

omit [Digest] in
/-- An iterator keeps what it goes through. -/
theorem Stands.survives {starts : List Value} (hst : h.Stands slot iterable s left)
    (hsurvives : h.Survives starts h' slot) {vslot : Nat} (hvslot : iterable.slot? = some vslot) :
    h.Survives starts h' vslot := by
  obtain ⟨b, _, hb, _, hbody, _⟩ := hst.iterator
  refine hsurvives.edge hb ?_ hvslot
  rw [hbody]
  exact List.mem_singleton.mpr rfl

/-- What a call for the next item leaves. At the end nothing happens any more. -/
inductive Advanced (h : Heap) (slot : Nat) (iterable : Value) (s : Source) (h' : Heap) :
    List Item → Option Value → Prop
  | done : h' = h → Advanced h slot iterable s h' [] none
  | next {item : Item} {left : List Item} {w : Value} : h'.Presents w item →
      h'.Stands slot iterable s left → Advanced h slot iterable s h' (item :: left) (some w)

theorem Stands.iterNext_advances (hst : h.Stands slot iterable s left) (hs : h.Sound admits 0)
    (hroots : ∀ w ∈ roots, h.Usable admits w) (hslot : iterator.slot? = some slot) :
    Yields among (iterNext roots iterator) h
      (fun found h' => h.Advanced slot iterable s h' left found)
      fun refusal _ => refusal.isOutOfMemory = true ∧
        ∃ item rest, left = item :: rest ∧ h.Lacks (roots ++ [iterator]) item := by
  obtain ⟨ib, position, hib, hkind, hbody, hleads⟩ := hst.iterator
  obtain ⟨vslot, b, hvslot, hne, hb, hp⟩ := hst.iterable
  have hiterator : h.Usable admits iterator := usable_of_slot? hslot hib
  have hiterable : h.Usable admits iterable := usable_of_slot? hvslot hb
  have hfetches : Yields among _ h _ _ :=
    (itemAt_fetches hs hroots hiterator hslot hib hvslot hb hp position).and
      (itemAt_yields hs hroots hiterator hiterable position)
  refine Yields.get (Yields.read_eq
    (expectBlock_eq hslot hib "iterator" (· == .iterator) (beq_iff_eq.mpr hkind)) ?_)
  dsimp only
  rw [hbody]
  refine Yields.bind (hfetches.mono (fun _ _ hf => hf) ?_) ?_
  · rintro refusal h' ⟨⟨hmemory, item, after, hstep, hlacks⟩, -⟩
    refine ⟨hmemory, ?_⟩
    cases hleads with
    | done hnone => cases hnone.symm.trans hstep
    | next hsome _ =>
        cases hsome.symm.trans hstep
        exact ⟨_, _, rfl, hlacks⟩
  · rintro found h' ⟨hfetched, hsupplied⟩
    cases hleads with
    | done hstep =>
        rw [hstep] at hfetched
        cases hfetched with
        | none hsame => exact Yields.pure (.done hsame)
    | next hstep hrest =>
        rw [hstep] at hfetched
        cases hfetched with
        | some hpresents =>
            -- what is made leaves the iterator and what it goes through where they are
            have hsurvives : h.Survives (roots ++ [iterator]) h' slot :=
              Or.inr (.start (by simp) hslot)
            have hcarries := hsupplied.completed.carries
            have hib' := hcarries.kept hib hsurvives (Option.some_ne_none slot).symm
            have hb' := hcarries.kept hb (hst.survives hsurvives hvslot)
              (Option.some_ne_none vslot).symm
            refine Yields.bind (Yields.modify (P := fun _ h'' => h'' = h'.setBody slot _) rfl) ?_
            rintro _ _ rfl
            refine Yields.pure (.next (hpresents _ fun s hs => block?_setBody_other hs _) ⟨?_, ?_⟩)
            · exact ⟨_, _, block?_setBody_self hib' _, hkind, rfl, hrest⟩
            · exact ⟨vslot, b, hvslot, hne, (block?_setBody_other hne _).trans hb', hp⟩

/-! ## Other operations -/

/-- A step that succeeds only if something is so. -/
def Requires {α : Type} (step : HeapM α) (h : Heap) (P : Prop) : Prop :=
  ∀ a h', step h = .ok a h' → P

omit [Digest] in
theorem Requires.bind {α β : Type} {step : HeapM α} {f : α → HeapM β} {P : Prop}
    (hstep : Requires step h P) : Requires (step >>= f) h P := by
  intro c h'' hok
  change EStateM.bind step f h = .ok c h'' at hok
  cases hmid : step h with
  | ok a h' => exact hstep a h' hmid
  | error stop h' =>
      rw [EStateM.bind, hmid] at hok
      cases hok

omit [Digest] in
theorem Requires.read {α β : Type} {x : Except Stop α} {f : α → HeapM β} {P : Prop}
    (hf : ∀ a, x = .ok a → Requires (f a) h P) : Requires (liftM x >>= f) h P := by
  intro c h' hok
  cases x with
  | ok a => exact hf a rfl c h' hok
  | error stop => cases hok

omit [Digest] in
/-- A step that first finds a block of a kind other than iterators requires its value to refer to
such a block. -/
theorem requires_of_gives {α β : Type} {x : Except Stop α} {f : α → HeapM β} {Q : α → Prop}
    (hslot : v.slot? = some slot) (hb : h.block? slot = some b) (hx : Gives admits x Q)
    (hQ : ∀ a, Q a → ∃ slot b, v.slot? = some slot ∧ h.block? slot = some b ∧
      b.header.kind ≠ .iterator) :
    Requires (liftM x >>= f) h (b.header.kind ≠ .iterator) := by
  refine Requires.read fun a ha _ _ _ => ?_
  obtain ⟨slot', b', hslot', hb', hkind⟩ := hQ a (hx.result ha)
  cases hslot.symm.trans hslot'
  cases hb.symm.trans hb'
  exact hkind

omit [Digest] in
theorem requires_sequence {α : Type} {x : Except Stop (Nat × Block)} {f : Nat × Block → HeapM α}
    (hslot : v.slot? = some slot) (hb : h.block? slot = some b)
    (hx : Gives admits x fun (slot, b) => v.slot? = some slot ∧ h.block? slot = some b ∧
      b.header.kind.isSequence = true ∧ b.header.kind.isMutable = true) :
    Requires (liftM x >>= f) h (b.header.kind ≠ .iterator) := by
  refine requires_of_gives hslot hb hx fun (slot, b) hfound => ?_
  obtain ⟨hslot, hb, hseq, _⟩ := hfound
  exact ⟨slot, b, hslot, hb, fun hkind => by rw [hkind] at hseq; cases hseq⟩

omit [Digest] in
theorem requires_record {α : Type} {f : Nat × Body → HeapM α} (hv : h.Usable admits v)
    (hslot : v.slot? = some slot) (hb : h.block? slot = some b) (kind : Kind)
    (hother : kind ≠ .iterator) :
    Requires (liftM (h.record v kind) >>= f) h (b.header.kind ≠ .iterator) := by
  refine requires_of_gives hslot hb (record_gives hv kind) fun (slot, body) hfound => ?_
  obtain ⟨hslot, b, hb, hkind, _⟩ := hfound
  exact ⟨slot, b, hslot, hb, hkind ▸ hother⟩

theorem setPinned_spares (hs : h.Sound admits 0) (hv : h.Usable admits v) (pinned : Bool)
    (hb : h.block? slot = some b) :
    Yields admits (Operation.effect do set (← (← get).setPinned v pinned)) h
      (fun _ h' => ∀ b', h'.block? slot = some b' → b'.body = b.body) fun _ _ => True := by
  obtain ⟨h', hpinned, _, hbodies⟩ := setPinned_spec hs hv pinned
  refine Yields.bind (Yields.get (Yields.look_eq hpinned (Yields.set ?_)))
    fun _ _ hspares => Yields.pure hspares
  exact fun b' hb' => hbodies slot b b' hb hb'

/-- A table that is altered and has survived was there before. -/
theorem Alters.exists_table {starts : List Value} {edits : Ledger}
    (halters : h.Alters admits starts slot h' edits) (hb : h.block? slot = some b)
    (hsurvives : h.Survives starts h' slot) : ∃ t, b.body = .hash t := by
  have hthere (t : ProbeTable) (htable : h.table slot = .ok t) : ∃ t, b.body = .hash t := by
    obtain ⟨b', hb', hbody⟩ := exists_block_of_table htable
    cases hb.symm.trans hb'
    exact ⟨t, hbody⟩
  cases halters with
  | put _ _ _ hstores =>
      obtain ⟨_, t, _, _, htable, _⟩ := hstores
      exact hthere t htable
  | del _ hremoves =>
      obtain ⟨_, _, _, t, _, htable, _⟩ := hremoves
      exact hthere t htable
  | fill hslot hmade =>
      obtain ⟨found, _, hfound, _, hfresh, _⟩ := hmade.table
      cases hslot.symm.trans hfound
      exact absurd hsurvives (hfresh b hb)

/-- No operation changes an iterator that survives, but calls for its next item. -/
theorem perform_spares {op : Operation} {result : Option Value} (hs : h.Sound admits 0)
    (hargs : ∀ w ∈ roots ++ op.arguments, h.Usable admits w)
    (hok : op.perform roots h = .ok result h')
    (hother : ∀ v, op = .iterNext v → v.slot? ≠ some slot) (hb : h.block? slot = some b)
    (hkind : b.header.kind = .iterator) (hsurvives : h.Survives (roots ++ op.arguments) h' slot) :
    ∃ b', h'.block? slot = some b' ∧ b'.header.kind = .iterator ∧ b'.body = b.body := by
  obtain ⟨hdone, halters⟩ := (op.perform_alters hs hargs).result hok
  obtain ⟨b', hb', hallows⟩ := hdone.carries.carried slot b hb hsurvives
  refine ⟨b', hb', ?_⟩
  rcases hallows with rfl | ⟨htarget, halike, -⟩
  · exact ⟨hkind, rfl⟩
  refine ⟨halike.kind_eq.trans hkind, ?_⟩
  by_cases haltered : (op.target h result).altered? = some slot
  · obtain ⟨t, hbody⟩ := (halters slot haltered).exists_table hb hsurvives
    have hfits := hs.coherent.fits slot b hb
    rw [hbody, hkind] at hfits
    cases hfits
  cases op with
  | seqSet v _ _ | seqSetLen v _ | updateBytes v _ =>
      have hv := hargs v (by simp [Operation.arguments])
      exact absurd hkind ((requires_sequence htarget hb (mutableSequence_gives hv)).bind _ _ hok)
  | seqAppend v _ | seqExtend v _ | seqPop v | seqReserve v _ =>
      have hv := hargs v (by simp [Operation.arguments])
      exact absurd hkind ((requires_sequence htarget hb (growableSequence_gives hv)).bind _ _ hok)
  | frameSetLocal v _ _ | framePush v _ | framePop v =>
      have hv := hargs v (by simp [Operation.arguments])
      exact absurd hkind ((requires_record hv htarget hb .frame (by decide)).bind _ _ hok)
  | threadEnter v frame =>
      have hv := hargs v (by simp [Operation.arguments])
      have hrequires : Requires (threadEnter v frame) h (b.header.kind ≠ .iterator) :=
        Requires.read fun _ _ => requires_record hv htarget hb .thread (by decide)
      exact absurd hkind (hrequires.bind _ _ hok)
  | threadReturn v value =>
      have hv := hargs v (by simp [Operation.arguments])
      have hrequires : Requires (threadReturn v value) h (b.header.kind ≠ .iterator) := by
        refine requires_of_gives htarget hb (threadBody_gives hs hv) fun t ht => ?_
        obtain ⟨slot, b, hslot, hb, hthread, _⟩ := ht
        exact ⟨slot, b, hslot, hb, by rw [hthread]; decide⟩
      exact absurd hkind (hrequires.bind _ _ hok)
  | iterNext v => exact absurd htarget (hother v rfl)
  | pin v =>
      have hv := hargs v (by simp [Operation.arguments])
      exact (setPinned_spares hs hv true hb).result hok b' hb'
  | unpin v =>
      have hv := hargs v (by simp [Operation.arguments])
      exact (setPinned_spares hs hv false hb).result hok b' hb'
  | dictPut _ _ _ | dictDel _ _ | setPut _ _ | setDel _ _ => exact absurd htarget haltered
  | setAttr object _ _ =>
      simp only [Operation.target, attributeTarget] at htarget haltered
      split at htarget
      next hdict =>
        rw [hdict] at haltered
        exact absurd htarget haltered
      next => cases htarget
  | newFrozenSet _ => cases result <;> cases htarget
  | _ => cases htarget

/-! ## Runs -/

/-- The heaps of runs that keep the iterator in a slot alive and leave what it goes through as it
is, with the items that have been returned so far and the heaps in which they were. -/
inductive Iterated (admits : Value → Prop) (slot : Nat) (iterable : Value) (start : Heap) :
    Heap → List (Heap × Value) → Prop
  | made {h' : Heap} {iterator : Value} (roots : List Value) : start.Reachable admits →
      (∀ w ∈ roots ++ [iterable], start.Usable admits w) → start.Iterable iterable →
      (Operation.newIterator iterable).perform roots start = .ok (some iterator) h' →
      iterator.slot? = some slot → Iterated admits slot iterable start h' []
  | next {h h' : Heap} {item : Value} {returned : List (Heap × Value)} (roots : List Value)
      (iterator : Value) : Iterated admits slot iterable start h returned →
      (∀ w ∈ roots ++ [iterator], h.Usable admits w) → iterator.slot? = some slot →
      (Operation.iterNext iterator).perform roots h = .ok (some item) h' →
      Iterated admits slot iterable start h' (returned ++ [(h', item)])
  | done {h h' : Heap} {result : Option Value} {returned : List (Heap × Value)}
      (roots : List Value) (op : Operation) : Iterated admits slot iterable start h returned →
      (∀ w ∈ roots ++ op.arguments, h.Usable admits w) → op.perform roots h = .ok result h' →
      (∀ iterator, op = .iterNext iterator → iterator.slot? = some slot → result = none) →
      h.Survives (roots ++ op.arguments) h' slot →
      (∀ vslot, iterable.slot? = some vslot → h'.body vslot = h.body vslot) →
      Iterated admits slot iterable start h' returned
  | refused {h h' : Heap} {refusal : Refusal} {returned : List (Heap × Value)}
      (roots : List Value) (op : Operation) : Iterated admits slot iterable start h returned →
      (∀ w ∈ roots ++ op.arguments, h.Usable admits w) →
      op.perform roots h = .error (.refused refusal) h' →
      h.Survives (roots ++ op.arguments) h' slot →
      Iterated admits slot iterable start h' returned

variable {returned : List (Heap × Value)}

theorem Iterated.reachable (hit : Iterated admits slot iterable start h returned) :
    h.Reachable admits := by
  induction hit with
  | made roots hr hargs _ hok _ =>
      exact hr.step roots (.newIterator iterable) hargs (by rw [Operation.after?, hok])
  | next roots iterator _ hargs _ hok ih =>
      exact ih.step roots (.iterNext iterator) hargs (by rw [Operation.after?, hok])
  | done roots op _ hargs hok _ _ _ ih =>
      exact ih.step roots op hargs (by rw [Operation.after?, hok])
  | refused roots op _ hargs hrefused _ ih =>
      exact ih.step roots op hargs (by rw [Operation.after?, hrefused])

/-- An iterator that is not called stands where it stood. -/
theorem Stands.carry {starts : List Value} {target : Target}
    (hst : h.Stands slot iterable s left) (hc : h.Coherent admits)
    (hcarries : h.Carries starts target h') (hsurvives : h.Survives starts h' slot)
    (hspared : ∀ b, h.block? slot = some b → b.header.kind = .iterator →
      ∃ b', h'.block? slot = some b' ∧ b'.header.kind = .iterator ∧ b'.body = b.body)
    (hsame : ∀ vslot, iterable.slot? = some vslot → h'.body vslot = h.body vslot) :
    h'.Stands slot iterable s left := by
  obtain ⟨ib, position, hib, hkind, hbody, hleads⟩ := hst.iterator
  obtain ⟨vslot, b, hvslot, hne, hb, hp⟩ := hst.iterable
  obtain ⟨ib', hib', hkind', hbody'⟩ := hspared ib hib hkind
  obtain ⟨b', hb', hallows⟩ := hcarries.carried vslot b hb (hst.survives hsurvives hvslot)
  have hprovides : b'.Provides s := by
    have hread := hsame vslot hvslot
    rw [body_eq hb, body_eq hb'] at hread
    exact hp.congr (hallows.alike (hc.fits vslot b hb)).kind_eq (Except.ok.inj hread)
  exact ⟨⟨ib', position, hib', hkind', hbody'.trans hbody, hleads⟩, vslot, b', hvslot, hne, hb',
    hprovides⟩

omit [Digest] in
/-- An operation that is refused leaves an iterator where it stood. -/
theorem Stands.retreat {starts : List Value} (hst : h.Stands slot iterable s left)
    (hcarries : h.Carries starts .nothing h') (hsurvives : h.Survives starts h' slot) :
    h'.Stands slot iterable s left := by
  obtain ⟨ib, position, hib, hrest⟩ := hst.iterator
  obtain ⟨vslot, b, hvslot, hne, hb, hp⟩ := hst.iterable
  have hib' := hcarries.kept hib hsurvives (Option.some_ne_none slot).symm
  have hb' := hcarries.kept hb (hst.survives hsurvives hvslot) (Option.some_ne_none vslot).symm
  exact ⟨⟨ib, position, hib', hrest⟩, vslot, b, hvslot, hne, hb', hp⟩

/-- A new iterator has all items left. -/
theorem newIterator_stands (hs : start.Sound admits 0)
    (hargs : ∀ w ∈ roots ++ [iterable], start.Usable admits w) {vslot : Nat}
    (hvslot : iterable.slot? = some vslot) (hb : start.block? vslot = some b) (hp : b.Provides s)
    (hok : (Operation.newIterator iterable).perform roots start = .ok (some iterator) h')
    (hslot : iterator.slot? = some slot) : h'.Stands slot iterable s s.items := by
  have ha : start.Accepts admits .iterator (.iterator ⟨iterable, 0⟩) := by
    refine accepts_record rfl trivial trivial fun w hw => hargs w ?_
    rw [List.mem_singleton.mp hw]
    simp
  have hmade : Yields admits ((Operation.newIterator iterable).perform roots) start
      (fun result h' => ∀ v ∈ result, ∃ slot, v.slot? = some slot ∧
        start.Allocated admits (roots ++ [iterable]) .iterator (.iterator ⟨iterable, 0⟩) slot h')
      fun _ _ => True :=
    Yields.map ((allocate_yields hs (fun w hw => hargs w (List.mem_append_left _ hw)) ha).mono
      (fun _ _ hnew v hv => Option.mem_some.mp hv ▸ hnew) fun _ _ _ => trivial)
  obtain ⟨found, hfound, hnew⟩ := hmade.result hok iterator rfl
  cases hslot.symm.trans hfound
  obtain ⟨ib, hib, hkind, hbody, _⟩ := hnew.block
  obtain ⟨hne, hb'⟩ := hnew.survives hb (Or.inr (.start (by simp) hvslot))
  exact ⟨⟨ib, 0, hib, hkind, hbody, s.leads_items⟩, vslot, b, hvslot, hne, hb', hp⟩

/-- The items that are left are those that have not been returned. -/
theorem Iterated.stands (hit : Iterated admits slot iterable start h returned) :
    ∃ s : Source, start.Offers iterable s.items ∧
      h.Stands slot iterable s (s.items.drop returned.length) ∧
      List.Forall₂ (fun entry item => entry.1.Presents entry.2 item) returned
        (s.items.take returned.length) := by
  induction hit with
  | made roots hr hargs hiterable hok hslot =>
      obtain ⟨vslot, b, s, hvslot, hb, hp⟩ := hiterable.provides hr.sound (hargs iterable (by simp))
      exact ⟨s, offers_items hvslot hb hp,
        newIterator_stands hr.sound hargs hvslot hb hp hok hslot, List.Forall₂.nil⟩
  | @next h h' item returned roots iterator hit hargs hslot hok ih =>
      obtain ⟨s, hoffers, hst, hreturned⟩ := ih
      have hadvances : Yields admits _ h _ _ := hst.iterNext_advances hit.reachable.sound
        (fun w hw => hargs w (List.mem_append_left _ hw)) hslot
      have hadvanced := hadvances.result hok
      generalize hleft : s.items.drop returned.length = left at hadvanced
      cases hadvanced with
      | @next first left _ hpresents hstands =>
          have hfirst : s.items[returned.length]? = some first := by
            rw [← List.head?_drop, hleft, List.head?_cons]
          refine ⟨s, hoffers, ?_, ?_⟩
          · rwa [List.length_append, List.length_singleton, ← List.tail_drop, hleft, List.tail_cons]
          · rw [List.length_append, List.length_singleton, List.take_add_one, hfirst]
            exact List.rel_append hreturned (.cons hpresents .nil)
  | @done h h' result returned roots op hit hargs hok hother hsurvives hsame ih =>
      obtain ⟨s, hoffers, hst, hreturned⟩ := ih
      have hs := hit.reachable.sound
      refine ⟨s, hoffers, ?_, hreturned⟩
      by_cases hcalled : ∃ iterator, op = .iterNext iterator ∧ iterator.slot? = some slot
      · obtain ⟨iterator, rfl, hslot⟩ := hcalled
        cases hother iterator rfl hslot
        have hadvances : Yields admits _ h _ _ := hst.iterNext_advances hs
          (fun w hw => hargs w (List.mem_append_left _ hw)) hslot
        have hadvanced := hadvances.result hok
        generalize s.items.drop returned.length = left at hst hadvanced ⊢
        cases hadvanced with
        | done hstill => exact hstill ▸ hst
      · refine hst.carry hs.coherent ((op.perform_yields hs hargs).result hok).carries hsurvives
          (fun b hb hkind => perform_spares hs hargs hok ?_ hb hkind hsurvives) hsame
        exact fun v hop hslot => hcalled ⟨v, hop, hslot⟩
  | @refused h h' refusal returned roots op hit hargs hrefused hsurvives ih =>
      obtain ⟨s, hoffers, hst, hreturned⟩ := ih
      have hretreats := (op.perform_yields hit.reachable.sound hargs).refusal hrefused
      exact ⟨s, hoffers, hst.retreat hretreats.carries hsurvives, hreturned⟩

/-- An iterator enumerates what it was made for. The values returned so far are the first of the
items, one after another; those of a whole text make up the text. A call returns the next item,
unless a block has to be made for it and what is kept leaves no room. When there are no more items,
calls return nothing and change nothing. -/
theorem Iterated.enumerates (hit : Iterated admits slot iterable start h returned) :
    ∃ items, start.Offers iterable items ∧ h.Offers iterable items ∧
      List.Forall₂ (fun entry item => entry.1.Presents entry.2 item) returned
        (items.take returned.length) ∧
      (∀ text, h.text iterable = .ok text → returned.length = items.length → ∃ parts,
        List.Forall₂ (fun entry part => entry.1.text entry.2 = .ok part) returned parts ∧
          String.join parts = text) ∧
      ∀ roots iterator, (∀ w ∈ roots, h.Usable admits w) → iterator.slot? = some slot →
        (∀ item, items[returned.length]? = some item →
          (∃ w h', (Operation.iterNext iterator).perform roots h = .ok (some w) h' ∧
            h'.Presents w item) ∨
          ∃ refusal h', (Operation.iterNext iterator).perform roots h =
              .error (.refused refusal) h' ∧
            refusal.isOutOfMemory = true ∧ h.Lacks (roots ++ [iterator]) item) ∧
        (items.length ≤ returned.length →
          (Operation.iterNext iterator).perform roots h = .ok none h) := by
  have hs := hit.reachable.sound
  obtain ⟨s, hoffers, hst, hreturned⟩ := hit.stands
  obtain ⟨vslot, b, hvslot, _, hb, hp⟩ := hst.iterable
  have hstill := offers_items hvslot hb hp
  refine ⟨s.items, hoffers, hstill, hreturned, fun text htext hall => ?_,
    fun roots iterator hroots hslot => ?_⟩
  · rw [hall, List.take_length, hstill.eq_of_text hs (usable_of_slot? hvslot hb) htext,
      List.forall₂_map_right_iff] at hreturned
    refine ⟨text.toList.map String.singleton, List.forall₂_map_right_iff.mpr hreturned, ?_⟩
    rw [← String.toList_inj, String.toList_join, List.flatMap_map]
    simp
  · refine ⟨fun item hitem => ?_, fun hend => ?_⟩
    · rw [List.drop_eq_getElem?_toList_append, hitem] at hst
      have hadvances : Yields (fun _ => False) _ h _ _ := hst.iterNext_advances hs hroots hslot
      rcases hadvances.ok_or_refused with ⟨found, h', hok, hadvanced⟩ |
        ⟨refusal, h', hrefused, hmemory, first, rest, hleft, hlacks⟩
      · cases hadvanced with
        | @next _ _ w hpresents _ => exact Or.inl ⟨w, h', hok, hpresents⟩
      · cases hleft
        exact Or.inr ⟨refusal, h', hrefused, hmemory, hlacks⟩
    · rw [List.drop_of_length_le hend] at hst
      have hadvances : Yields (fun _ => False) _ h _ _ := hst.iterNext_advances hs hroots hslot
      rcases hadvances.ok_or_refused with ⟨found, h', hok, hadvanced⟩ |
        ⟨_, _, _, _, _, _, hleft, _⟩
      · cases hadvanced with
        | done hstill => exact hstill ▸ hok
      · cases hleft

end Digest

/-- A text of two characters in little memory. While the first one and some bytes are kept there is
no room for the second one, so that the call for it is refused. The next call returns it. -/
theorem exists_iterated_cramped : ∃ start first last : Heap,
    Iterated (fun _ => True) 3 (Value.ofSlot 2) start last
        ([] ++ [(first, Value.ofSlot 4)] ++ [(last, Value.ofSlot 5)]) ∧
      last.Usable (fun _ => True) (Value.ofSlot 2) ∧
      last.text (Value.ofSlot 2) = .ok "aé" ∧ last.collections = 2 := by
  have hheld {h : Heap} : h.Held ([Value.ofSlot 0, Value.ofSlot 4, Value.ofSlot 5] ++
      (Operation.iterNext (Value.ofSlot 3)).arguments) 3 :=
    .start (v := Value.ofSlot 3) (by simp [Operation.arguments]) rfl
  refine ⟨_, _, _, .next [] (Value.ofSlot 3)
    (.refused [Value.ofSlot 0, Value.ofSlot 4, Value.ofSlot 5] (.iterNext (Value.ofSlot 3))
      (.done [] (.newBytes #[1, 2, 3, 4, 5, 6, 7, 8])
        (.next [] (Value.ofSlot 3)
          (.made [] (.step [] (.newString "aé") (reachable_cramped _) ?_ (by cbv)) ?_ ?iterable
            (by cbv) rfl)
          ?_ rfl (by cbv))
        ?_ (by cbv) ?other ?survives ?same)
      ?_ (by cbv) (Or.inr hheld))
    ?_ rfl (by cbv), ?usable, ?text, ?collections⟩
  case iterable => exact ⟨.string, rfl, Or.inr (Or.inl rfl), fun _ => ⟨"aé", by decide +kernel⟩⟩
  case other =>
    intro iterator hcall
    cases hcall
  case survives => exact Or.inl rfl
  case same =>
    intro vslot hvslot
    cases hvslot
    rfl
  case usable => exact usable_of_passes (by decide +kernel)
  case text => decide +kernel
  case collections => rfl
  all_goals
    refine fun w hw => usable_of_passes (List.all_eq_true.mp ?_ w hw)
    decide +kernel

theorem enumerates_cramped : ∃ start first last : Heap,
    Iterated (fun _ => True) 3 (Value.ofSlot 2) start last
        [(first, Value.ofSlot 4), (last, Value.ofSlot 5)] ∧ last.collections = 2 ∧
      first.text (Value.ofSlot 4) = .ok "a" ∧ last.text (Value.ofSlot 5) = .ok "é" ∧
      (Operation.iterNext (Value.ofSlot 3)).perform [] last = .ok none last := by
  obtain ⟨start, first, last, hit, husable, htext, hcollections⟩ := exists_iterated_cramped
  obtain ⟨items, _, hoffers, hreturned, _, hnext⟩ := hit.enumerates
  have hitems := hoffers.eq_of_text hit.reachable.sound husable htext
  rw [show "aé".toList = ['a', 'é'] by decide +kernel] at hitems
  subst hitems
  cases hreturned with
  | cons hfirst hrest =>
      cases hrest with
      | cons hsecond _ =>
          exact ⟨start, first, last, hit, hcollections, hfirst, hsecond,
            (hnext [] (Value.ofSlot 3) (by simp) rfl).2 (Nat.le_refl _)⟩

end Heap

end ObjectHeap
