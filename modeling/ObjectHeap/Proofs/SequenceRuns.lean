import ObjectHeap.Proofs.Histories

/-! # Sequences in runs

Beside a sequence that may grow, a run keeps a list. The list starts with the items that the
sequence is made with. Operations on the sequence that succeed are performed on the list, and all
else leaves it as it is. What is read from the sequence is what the list has, as long as the
sequence survives.
-/

namespace ObjectHeap

open Heap

/-! ## Lists beside sequences -/

theorem Kind.isSequence_of_isGrowable {kind : Kind} (h : kind.isGrowable = true) :
    kind.isSequence = true := by
  cases kind <;> first | rfl | cases h

theorem Kind.isMutable_of_isGrowable {kind : Kind} (h : kind.isGrowable = true) :
    kind.isMutable = true := by
  cases kind <;> first | rfl | cases h

/-- Whether there is a sequence in a slot, of a kind that may grow and with some elements. -/
def Heap.IsList (h : Heap) (slot : Nat) (kind : Kind) (items : List Value) : Prop :=
  ∃ b, h.block? slot = some b ∧ b.header.kind = kind ∧ kind.isGrowable = true ∧
    b.body.elements = items

namespace Operation

/-- The kind of the growable sequence that an operation makes, and its elements. -/
def opens? : Operation → Option (Kind × List Value)
  | .newSequence kind _ => if kind.isGrowable then some (kind, []) else none
  | .newBuffer _ => some (.buffer, [])
  | .newByteArray data => some (.byteArray, data.toList.map fun b => .ofUnit b.toNat)
  | .newShortArray data => some (.shortArray, data.toList.map fun s => .ofUnit s.toNat)
  | .newList items => some (.list, items.toList)
  | _ => none

/-- The sequence that an operation is on. -/
def sequence? : Operation → Option Value
  | .seqSet seq _ _ | .seqAppend seq _ | .seqExtend seq _ | .seqPop seq | .seqReserve seq _
  | .seqSetLen seq _ | .updateBytes seq _ => some seq
  | _ => none

/-- The operation on a list that corresponds to one on a sequence of a kind. -/
def revise (kind : Kind) (items : List Value) : Operation → List Value
  | .seqSet _ index item => items.set index (kind.element item)
  | .seqAppend _ item => items ++ [kind.element item]
  | .seqExtend _ more => items ++ more.map kind.element
  | .seqPop _ => items.dropLast
  | .seqSetLen _ len => items.take len ++ List.replicate (len - items.length) kind.filler
  | .updateBytes _ change => items.mapIdx fun i item => .ofUnit (change i (Body.byteOf item)).toNat
  | _ => items

/-- The list for the sequence in a slot after an operation. -/
def revised (slot : Nat) (kind : Kind) (items : List Value) (op : Operation) : List Value :=
  if op.sequence?.bind Value.slot? = some slot then op.revise kind items else items

/-- The sequence that an operation is on is the one whose elements change. -/
theorem revised?_target (h : Heap) (result : Option Value) (op : Operation) :
    (op.target h result).revised? = op.sequence?.bind Value.slot? := by
  cases op with
  | setAttr object name value =>
      simp only [target, attributeTarget]
      split <;> rfl
  | newFrozenSet items => cases result <;> rfl
  | _ => rfl

variable [Digest] {admits : Value → Prop} {h : Heap} {roots : List Value}

/-- An operation without a result revises a sequence as its step does. -/
theorem revises_effect {v : Value} {step : HeapM Unit} (starts : List Value)
    {revise : Kind → List Value → List Value} {R : Refusal → Heap → Prop}
    (hyields : Yields admits step h
      (fun _ h' => h.Completed admits starts (.sequence v) [] h' ∧ h.Revises v h' revise) R) :
    Yields admits (effect step) h (fun _ h' => h.Revises v h' revise) fun _ _ => True :=
  Yields.bind (Yields.mono hyields (fun _ _ hdone => hdone.2) fun _ _ _ => trivial)
    fun _ _ hdone => Yields.pure hdone

theorem revises_answer {v : Value} {step : HeapM Value} (starts : List Value)
    {revise : Kind → List Value → List Value} {R : Refusal → Heap → Prop}
    (hyields : Yields admits step h
      (fun w h' => h.Completed admits starts (.sequence v) [w] h' ∧ h.Revises v h' revise) R) :
    Yields admits (some <$> step) h (fun _ h' => h.Revises v h' revise) fun _ _ => True :=
  Yields.map (Yields.mono hyields (fun _ _ hdone => hdone.2) fun _ _ _ => trivial)

/-- An operation on a sequence does to its elements what it does to a list. -/
theorem perform_revises (hs : h.Sound admits 0) (op : Operation)
    (hpassed : ∀ v ∈ roots ++ op.arguments, h.Usable admits v) {v : Value}
    (hseq : op.sequence? = some v) :
    Yields admits (op.perform roots) h
      (fun _ h' => h.Revises v h' fun kind items => op.revise kind items) fun _ _ => True := by
  have hroots (w : Value) (hw : w ∈ roots) := hpassed w (List.mem_append_left _ hw)
  have hargs (w : Value) (hw : w ∈ op.arguments) := hpassed w (List.mem_append_right _ hw)
  cases op with
  | seqSet seq index item =>
      cases hseq
      exact revises_effect [] (seqSet_revises hs (hargs v (by simp [arguments])) index
        (hargs item (by simp [arguments])))
  | seqAppend seq item =>
      cases hseq
      exact revises_effect _ (seqExtend_revises hs hroots (hargs v (by simp [arguments]))
        fun w hw => hargs w (List.mem_cons_of_mem _ hw))
  | seqExtend seq items =>
      cases hseq
      exact revises_effect _ (seqExtend_revises hs hroots (hargs v (by simp [arguments]))
        fun w hw => hargs w (List.mem_cons_of_mem _ hw))
  | seqPop seq =>
      cases hseq
      exact revises_answer [] (seqPop_revises hs (hargs v (by simp [arguments])))
  | seqReserve seq capacity =>
      cases hseq
      exact revises_effect _ (seqReserve_revises hs hroots (hargs v (by simp [arguments])) capacity)
  | seqSetLen seq len =>
      cases hseq
      exact revises_effect [] (seqSetLen_revises hs (hargs v (by simp [arguments])) len)
  | updateBytes seq change =>
      cases hseq
      exact revises_effect [] (updateBytes_revises hs (hargs v (by simp [arguments])) change)
  | _ => cases hseq

/-! ## New sequences -/

/-- A list is allocated with the elements of its payload. -/
theorem allocate_lists (hs : h.Sound admits 0) (hroots : ∀ w ∈ roots, h.Usable admits w)
    {kind : Kind} {body : Body} (ha : h.Accepts admits kind body) (hkind : kind.isGrowable = true)
    {items : List Value} (hitems : body.elements = items) :
    Yields admits (allocate roots kind body) h
      (fun v h' => ∀ slot, v.slot? = some slot → h'.IsList slot kind items) fun _ _ => True := by
  refine Yields.mono (allocate_yields hs hroots ha) ?_ fun _ _ _ => trivial
  rintro v h' ⟨slot, hslot, hnew⟩ found hfound
  cases hslot.symm.trans hfound
  obtain ⟨b, hb, hsame, hbody, _⟩ := hnew.block
  exact ⟨b, hb, hsame, hkind, hbody ▸ hitems⟩

/-- A growable sequence is made empty, whatever length is asked for. -/
theorem newSequence_lists (hs : h.Sound admits 0) (hroots : ∀ w ∈ roots, h.Usable admits w)
    {kind : Kind} (hkind : kind.isGrowable = true) (len : Nat) :
    Yields admits (Heap.newSequence roots kind len) h
      (fun v h' => ∀ slot, v.slot? = some slot → h'.IsList slot kind []) fun _ _ => True := by
  have hseq := Kind.isSequence_of_isGrowable hkind
  have hempty {α : Type} [Inhabited α] : (emptyOrZeroed kind len : BoundedSeq α).toList = [] := by
    rw [emptyOrZeroed, if_pos (Kind.isMutable_of_isGrowable hkind), BoundedSeq.toList_withCapacity]
  unfold Heap.newSequence
  simp only [hseq, Bool.not_true, Bool.false_eq_true, if_false]
  refine Yields.get (Yields.read (checkSequence_gives hseq len) (fun _ => trivial) fun _ _ => ?_)
  cases hshape : kind.shape with
  | byteSequence =>
      exact allocate_lists hs hroots (accepts_bytes hshape (valid_emptyOrZeroed kind len)) hkind
        (by rw [Body.elements, hempty, List.map_nil])
  | shortSequence =>
      exact allocate_lists hs hroots (accepts_shorts hshape (valid_emptyOrZeroed kind len)) hkind
        (by rw [Body.elements, hempty, List.map_nil])
  | objectSequence =>
      exact allocate_lists hs hroots (accepts_objects hshape (valid_emptyOrZeroed kind len)
        (by simp [hempty])) hkind hempty
  | _ => simp [Kind.isSequence, hshape] at hseq

/-- A new sequence has the elements that it is made with. -/
theorem perform_opens (hs : h.Sound admits 0) (op : Operation)
    (hpassed : ∀ v ∈ roots ++ op.arguments, h.Usable admits v) {kind : Kind} {items : List Value}
    (hopens : op.opens? = some (kind, items)) :
    Yields admits (op.perform roots) h (fun result h' => ∀ v ∈ result, ∀ slot,
      v.slot? = some slot → h'.IsList slot kind items) fun _ _ => True := by
  have hroots (w : Value) (hw : w ∈ roots) := hpassed w (List.mem_append_left _ hw)
  have hargs (w : Value) (hw : w ∈ op.arguments) := hpassed w (List.mem_append_right _ hw)
  have hanswer {step : HeapM Value} (hyields : Yields admits step h
      (fun v h' => ∀ slot, v.slot? = some slot → h'.IsList slot kind items) fun _ _ => True) :
      Yields admits (some <$> step) h (fun result h' => ∀ v ∈ result, ∀ slot,
        v.slot? = some slot → h'.IsList slot kind items) fun _ _ => True :=
    Yields.map (Yields.mono hyields (by simp) fun _ _ _ => trivial)
  cases op with
  | newSequence found len =>
      simp only [opens?, Option.ite_none_right_eq_some, Option.some.injEq, Prod.mk.injEq] at hopens
      obtain ⟨hgrowable, rfl, rfl⟩ := hopens
      exact hanswer (newSequence_lists hs hroots hgrowable len)
  | newBuffer capacity =>
      cases hopens
      refine hanswer (Yields.get (Yields.read (checkSequence_gives rfl capacity) (fun _ => trivial)
        fun _ _ => allocate_lists hs hroots ?_ rfl ?_))
      · exact accepts_bytes rfl (BoundedSeq.valid_withCapacity capacity)
      · rw [Body.elements, BoundedSeq.toList_withCapacity, List.map_nil]
  | newByteArray data =>
      cases hopens
      exact hanswer (allocate_lists hs hroots (accepts_bytes rfl (BoundedSeq.valid_filled data)) rfl
        (by rw [Body.elements, BoundedSeq.toList_filled]))
  | newShortArray data =>
      cases hopens
      exact hanswer (allocate_lists hs hroots (accepts_shorts rfl (BoundedSeq.valid_filled data))
        rfl (by rw [Body.elements, BoundedSeq.toList_filled]))
  | newList data =>
      cases hopens
      exact hanswer (allocate_lists hs hroots (accepts_objects rfl (BoundedSeq.valid_filled data)
        (by rwa [BoundedSeq.toList_filled])) rfl (BoundedSeq.toList_filled data))
  | _ => cases hopens

end Operation

namespace Heap

/-- The heaps of runs that keep the sequence in a slot, with its kind and the list beside it. -/
inductive Traced [Digest] (admits : Value → Prop) (slot : Nat) : Heap → Kind → List Value → Prop
  | made {h h' : Heap} {v : Value} {kind : Kind} {items : List Value} (roots : List Value)
      (op : Operation) : h.Reachable admits → (∀ w ∈ roots ++ op.arguments, h.Usable admits w) →
      op.perform roots h = .ok (some v) h' → v.slot? = some slot →
      op.opens? = some (kind, items) → Traced admits slot h' kind items
  | done {h h' : Heap} {result : Option Value} {kind : Kind} {items : List Value}
      (roots : List Value) (op : Operation) : Traced admits slot h kind items →
      (∀ w ∈ roots ++ op.arguments, h.Usable admits w) → op.perform roots h = .ok result h' →
      h.Survives (roots ++ op.arguments) h' slot →
      Traced admits slot h' kind (op.revised slot kind items)
  | refused {h h' : Heap} {refusal : Refusal} {kind : Kind} {items : List Value}
      (roots : List Value) (op : Operation) : Traced admits slot h kind items →
      (∀ w ∈ roots ++ op.arguments, h.Usable admits w) →
      op.perform roots h = .error (.refused refusal) h' →
      h.Survives (roots ++ op.arguments) h' slot → Traced admits slot h' kind items

section Digest

variable [Digest] {admits : Value → Prop} {h h' : Heap} {roots : List Value} {op : Operation}
  {slot : Nat} {kind : Kind} {items : List Value} {v : Value}

/-- What was traced along a run is about a heap of the run. -/
theorem Traced.reachable (ht : Traced admits slot h kind items) : h.Reachable admits := by
  induction ht with
  | made roots op hr hargs hok _ _ => exact .step roots op hr hargs (by rw [Operation.after?, hok])
  | done roots op _ hargs hok _ ih => exact .step roots op ih hargs (by rw [Operation.after?, hok])
  | refused roots op _ hargs hrefused _ ih =>
      exact .step roots op ih hargs (by rw [Operation.after?, hrefused])

/-- A sequence that survives an operation has the elements that the list has then. -/
theorem IsList.perform (hlist : h.IsList slot kind items) (hs : h.Sound admits 0)
    (hargs : ∀ w ∈ roots ++ op.arguments, h.Usable admits w) {result : Option Value}
    (hok : op.perform roots h = .ok result h')
    (hsurvives : h.Survives (roots ++ op.arguments) h' slot) :
    h'.IsList slot kind (op.revised slot kind items) := by
  obtain ⟨b, hb, rfl, hgrowable, rfl⟩ := hlist
  have hdone := (Operation.perform_yields hs op hargs).result hok
  obtain ⟨b', hb', hallows⟩ := hdone.carries.carried slot b hb hsurvives
  refine ⟨b', hb', (hallows.alike (hs.coherent.fits slot b hb)).kind_eq, hgrowable, ?_⟩
  rw [Operation.revised]
  split
  next hon =>
    obtain ⟨v, hseq, hslot⟩ := Option.bind_eq_some_iff.mp hon
    obtain ⟨found, old, new, hfound, hold, hnew, helements⟩ :=
      (Operation.perform_revises hs op hargs hseq).result hok
    cases hslot.symm.trans hfound
    cases hb.symm.trans hold
    cases hb'.symm.trans hnew
    exact helements
  next hoff =>
    rw [← Operation.revised?_target h result] at hoff
    exact hallows.elements_eq hoff

/-- A refused operation leaves the items as they are, if the list survives it. -/
theorem IsList.refused (hlist : h.IsList slot kind items) (hs : h.Sound admits 0)
    (hargs : ∀ w ∈ roots ++ op.arguments, h.Usable admits w) {refusal : Refusal}
    (hrefused : op.perform roots h = .error (.refused refusal) h')
    (hsurvives : h.Survives (roots ++ op.arguments) h' slot) : h'.IsList slot kind items := by
  obtain ⟨b, hb, hlist⟩ := hlist
  have hretreats := (Operation.perform_yields hs op hargs).refusal hrefused
  exact ⟨b, hretreats.carries.kept hb hsurvives (Option.some_ne_none slot).symm, hlist⟩

/-- The sequence is what the list says. -/
theorem Traced.isList (ht : Traced admits slot h kind items) : h.IsList slot kind items := by
  induction ht with
  | made roots op hr hargs hok hslot hopens =>
      exact (op.perform_opens hr.sound hargs hopens).result hok _ rfl slot hslot
  | done roots op ht hargs hok hsurvives ih =>
      exact ih.perform ht.reachable.sound hargs hok hsurvives
  | refused roots op ht hargs hrefused hsurvives ih =>
      exact ih.refused ht.reachable.sound hargs hrefused hsurvives

/-! ## Reading -/

/-- What is read from a sequence of a kind beside which there is a list. -/
structure ReadsAs (h : Heap) (v : Value) (kind : Kind) (items : List Value) : Prop where
  kindOf_eq : h.kindOf v = .ok kind
  len_eq : h.len v = .ok items.length
  len_le : ∃ capacity, h.capacity v = .ok capacity ∧ items.length ≤ capacity
  get_eq : ∀ index item, items[index]? = some item → h.seqGet v index = .ok item
  get_past : ∀ index, items.length ≤ index →
    h.seqGet v index = .error (.refused (.indexOutOfRange index items.length))
  objects_eq : kind = .list → h.objects v = .ok items.toArray
  bytes_eq : kind = .byteArray ∨ kind = .buffer → ∃ data, h.bytes v = .ok data ∧
    items = data.toList.map fun b => Value.ofUnit b.toNat
  shorts_eq : kind = .shortArray → ∃ data, h.shorts v = .ok data ∧
    items = data.toList.map fun s => Value.ofUnit s.toNat

omit [Digest] in
/-- The length is the number of the elements. -/
theorem len_of_isSequence {b : Block} (hslot : v.slot? = some slot) (hb : h.block? slot = some b)
    (hform : b.body.IsSequence) (hvalid : b.body.Valid) :
    h.len v = .ok b.body.elements.length := by
  obtain ⟨_, hlen, _⟩ := Body.exists_counts hform hvalid
  rw [len]
  refine (liftM_bind_eq (kindOf_eq hslot hb) _).trans ?_
  rw [hslot]
  refine (liftM_bind_eq (body_eq hb) _).trans ?_
  rcases hform with ⟨seq, hbody⟩ | ⟨seq, hbody⟩ | ⟨seq, hbody⟩ <;>
  · rw [hbody] at hlen ⊢
    rw [← Except.ok.inj hlen]
    rfl

omit [Digest] in
theorem capacity_of_isSequence {b : Block} {capacity : Nat} (hslot : v.slot? = some slot)
    (hb : h.block? slot = some b) (hkind : b.header.kind.isSequence = true)
    (hform : b.body.IsSequence) (hcapacity : b.body.seqCapacity = .ok capacity) :
    h.capacity v = .ok capacity := by
  have hexpect := expectBlock_eq hslot hb "sequence or hash"
    (fun kind => kind.isSequence || kind.isHash) (by simp [hkind])
  rcases hform with ⟨seq, hbody⟩ | ⟨seq, hbody⟩ | ⟨seq, hbody⟩ <;>
  · rw [hbody] at hcapacity
    simp only [Heap.capacity, hexpect, bind, Except.bind, hbody]
    rw [← Except.ok.inj hcapacity]
    rfl

omit [Digest] in
/-- An index is read off the elements, or is out of range. -/
theorem seqGet_eq {b : Block} (hslot : v.slot? = some slot) (hb : h.block? slot = some b)
    (hkind : b.header.kind.isSequence = true) (hform : b.body.IsSequence) (hvalid : b.body.Valid)
    (index : Nat) :
    h.seqGet v index = match b.body.elements[index]? with
      | some item => .ok item
      | none => .error (.refused (.indexOutOfRange index b.body.elements.length)) := by
  obtain ⟨_, hlen, _⟩ := Body.exists_counts hform hvalid
  rw [seqGet, expectBlock_eq hslot hb _ _ hkind]
  refine (liftM_bind_eq (Body.seqGet?_eq hform index) _).trans ?_
  cases b.body.elements[index]? with
  | some item => rfl
  | none => exact liftM_bind_eq hlen _

/-- A list is read as its items: by length, by index and by element. -/
theorem IsList.readsAs (hlist : h.IsList slot kind items) (hc : h.Coherent admits)
    (hslot : v.slot? = some slot) : h.ReadsAs v kind items := by
  obtain ⟨b, hb, rfl, hgrowable, rfl⟩ := hlist
  have hkind : b.header.kind.isSequence = true := Kind.isSequence_of_isGrowable hgrowable
  have hfits := hc.fits slot b hb
  have hvalid := hc.valid slot b hb
  have hform := Body.isSequence_of_fits hfits hkind
  obtain ⟨capacity, _, hcapacity, hle⟩ := Body.exists_counts hform hvalid
  have hget := seqGet_eq hslot hb hkind hform hvalid
  refine ⟨Heap.kindOf_eq hslot hb, len_of_isSequence hslot hb hform hvalid,
    ⟨capacity, capacity_of_isSequence hslot hb hkind hform hcapacity, hle⟩,
    fun index item hitem => ?_, fun index hpast => ?_, fun hlist => ?_, fun hbytes => ?_,
    fun hshorts => ?_⟩
  · rw [hget, hitem]
  · rw [hget, List.getElem?_eq_none hpast]
  · have hshape : b.header.kind.shape = .objectSequence := by rw [hlist]; rfl
    obtain ⟨seq, hbody⟩ := Body.exists_objects hfits hshape
    have hexpect := expectBlock_eq hslot hb "list or tuple" (·.shape == .objectSequence)
      (beq_iff_eq.mpr hshape)
    simp only [objects, hexpect, bind, Except.bind, hbody]
    rfl
  · have hshape : b.header.kind.shape = .byteSequence := by
      rcases hbytes with heq | heq <;> rw [heq] <;> rfl
    obtain ⟨seq, hbody⟩ := Body.exists_bytes hfits hshape
    have hexpect := expectBlock_eq hslot hb "byte sequence" (·.shape == .byteSequence)
      (beq_iff_eq.mpr hshape)
    refine ⟨seq.toArray, ?_, by rw [hbody]; rfl⟩
    simp only [bytes, hexpect, bind, Except.bind, hbody]
    rfl
  · have hshape : b.header.kind.shape = .shortSequence := by rw [hshorts]; rfl
    obtain ⟨seq, hbody⟩ := Body.exists_shorts hfits hshape
    have hexpect := expectBlock_eq hslot hb "short sequence" (·.shape == .shortSequence)
      (beq_iff_eq.mpr hshape)
    refine ⟨seq.toArray, ?_, by rw [hbody]; rfl⟩
    simp only [shorts, hexpect, bind, Except.bind, hbody]
    rfl

/-! ## Writing -/

omit [Digest] in
theorem mutableSequence_eq {b : Block} (hslot : v.slot? = some slot) (hb : h.block? slot = some b)
    (hgrowable : b.header.kind.isGrowable = true) : h.mutableSequence v = .ok (slot, b) := by
  simp only [mutableSequence, Kind.isMutable_of_isGrowable hgrowable, Bool.not_true,
    expectBlock_eq hslot hb _ _ (Kind.isSequence_of_isGrowable hgrowable), bind, Except.bind]
  rfl

omit [Digest] in
theorem growableSequence_eq {b : Block} (hslot : v.slot? = some slot) (hb : h.block? slot = some b)
    (hgrowable : b.header.kind.isGrowable = true) : h.growableSequence v = .ok (slot, b) := by
  simp only [growableSequence, mutableSequence_eq hslot hb hgrowable, hgrowable, Bool.not_true,
    bind, Except.bind]
  rfl

omit [Digest] in
theorem checkElement_eq {item : Value} (htakes : kind.Takes item) :
    h.checkElement kind item = .ok () := by
  unfold checkElement
  cases hmax : elementMax? kind with
  | none => rfl
  | some largest =>
      obtain ⟨n, hview, hpos, hle⟩ := htakes largest hmax
      obtain ⟨hsmall, rfl⟩ := Value.view_eq_smallInt_iff.mp hview
      refine (liftM_bind_eq hsmall _).trans ?_
      simp [hpos, hle]
      rfl

omit [Digest] in
theorem checkElements_eq {more : List Value} (htakes : ∀ item ∈ more, kind.Takes item) :
    h.checkElements kind more = .ok () := by
  induction more with
  | nil => rfl
  | cons item more ih =>
      change (h.checkElement kind item >>= fun _ => h.checkElements kind more) = _
      rw [checkElement_eq (htakes item List.mem_cons_self)]
      exact ih fun w hw => htakes w (List.mem_cons_of_mem _ hw)

/-- What a sequence of a kind takes beside which there is a list. An item is taken if its kind
takes it, and only memory can be lacking then. -/
structure AcceptsAs (admits : Value → Prop) (h : Heap) (v : Value) (kind : Kind)
    (items : List Value) : Prop where
  set : ∀ index item, h.Usable admits item → Yields admits (seqSet v index item) h
    (fun _ _ => kind.Takes item ∧ index < items.length)
    (fun _ _ => ¬ (kind.Takes item ∧ index < items.length))
  extend : ∀ roots more, (∀ w ∈ roots ++ more, h.Usable admits w) →
    Yields admits (seqExtend roots v more) h (fun _ _ => ∀ item ∈ more, kind.Takes item)
      (fun refusal _ => refusal.isOutOfMemory = true ∨ ¬ ∀ item ∈ more, kind.Takes item)
  append : ∀ roots item, (∀ w ∈ roots ++ [item], h.Usable admits w) →
    Yields admits (seqAppend roots v item) h (fun _ _ => kind.Takes item)
      (fun refusal _ => refusal.isOutOfMemory = true ∨ ¬ kind.Takes item)
  pop : Yields admits (seqPop v) h (fun item _ => items.getLast? = some item)
    (fun _ _ => items = [])
  setLen : ∀ len, Yields admits (seqSetLen v len) h
    (fun _ _ => ∃ capacity, h.capacity v = .ok capacity ∧ len ≤ capacity)
    (fun _ _ => ∃ capacity, h.capacity v = .ok capacity ∧ capacity < len)

section Writing

variable (hs : h.Sound admits 0) {b : Block} (hslot : v.slot? = some slot)
  (hb : h.block? slot = some b) (hgrowable : b.header.kind.isGrowable = true)
include hs hslot hb hgrowable

/-- An element is set if the list takes it and the index is within its length. -/
theorem seqSet_accepts (index : Nat) {item : Value} (hitem : h.Usable admits item) :
    Yields admits (seqSet v index item) h
      (fun _ _ => b.header.kind.Takes item ∧ index < b.body.elements.length)
      (fun _ _ => ¬ (b.header.kind.Takes item ∧ index < b.body.elements.length)) := by
  have hvalid := hs.coherent.valid slot b hb
  have hform := Body.isSequence_of_fits (hs.coherent.fits slot b hb)
    (Kind.isSequence_of_isGrowable hgrowable)
  obtain ⟨_, hn, _⟩ := Body.exists_counts hform hvalid
  refine Yields.get (Yields.read_eq (mutableSequence_eq hslot hb hgrowable) ?_)
  by_cases htakes : b.header.kind.Takes item
  · refine Yields.read_eq (checkElement_eq htakes) ?_
    rcases Body.seqSet?_cases hform hvalid index item with ⟨hset, hpast⟩ | ⟨body, hset, hlt, _⟩
    · exact Yields.look_eq hset (Yields.look_eq hn (Yields.throw fun hboth => by omega))
    · exact Yields.look_eq hset (Yields.set ⟨htakes, hlt⟩)
  · exact Yields.read (checkElement_gives hitem _) (fun _ hboth => htakes hboth.1)
      fun _ hcontra => absurd hcontra htakes

/-- A list is extended by what it takes, unless memory runs out. -/
theorem seqExtend_accepts {more : List Value} (hroots : ∀ w ∈ roots, h.Usable admits w)
    (hmore : ∀ w ∈ more, h.Usable admits w) :
    Yields admits (seqExtend roots v more) h
      (fun _ _ => ∀ item ∈ more, b.header.kind.Takes item)
      (fun refusal _ => refusal.isOutOfMemory = true ∨
        ¬ ∀ item ∈ more, b.header.kind.Takes item) := by
  have hseq := Kind.isSequence_of_isGrowable hgrowable
  have hform := Body.isSequence_of_fits (hs.coherent.fits slot b hb) hseq
  obtain ⟨capacity, hn, hcapacity, _⟩ :=
    Body.exists_counts hform (hs.coherent.valid slot b hb)
  refine Yields.get (Yields.read_eq (growableSequence_eq hslot hb hgrowable) ?_)
  by_cases htakes : ∀ item ∈ more, b.header.kind.Takes item
  · refine Yields.read_eq (checkElements_eq htakes)
      (Yields.look_eq hn (Yields.look_eq hcapacity ?_))
    exact (pushGrowing_yields hs hroots hslot hb hseq (Kind.isMutable_of_isGrowable hgrowable)
      hcapacity hmore).mono (fun _ _ _ => htakes) fun _ _ hd => Or.inl hd.1
  · exact Yields.read (Gives.forM fun item hitem => checkElement_gives (hmore item hitem) _)
      (fun _ => Or.inr htakes) fun _ hcontra => absurd hcontra htakes

/-- A pop answers the last item, and is refused if there is none. -/
theorem seqPop_accepts :
    Yields admits (seqPop v) h (fun item _ => b.body.elements.getLast? = some item)
      (fun _ _ => b.body.elements = []) := by
  have hform := Body.isSequence_of_fits (hs.coherent.fits slot b hb)
    (Kind.isSequence_of_isGrowable hgrowable)
  refine Yields.get (Yields.read_eq (growableSequence_eq hslot hb hgrowable) ?_)
  rcases Body.seqPop?_cases hform (hs.coherent.valid slot b hb) with
    ⟨hpop, hempty⟩ | ⟨item, body, hpop, _, hlist⟩
  · exact Yields.look_eq hpop (Yields.throw hempty)
  · exact Yields.look_eq hpop (Yields.set_bind (Yields.pure (by simp [hlist])))

/-- A length is set if it is within the capacity. -/
theorem seqSetLen_accepts (len : Nat) :
    Yields admits (seqSetLen v len) h
      (fun _ _ => ∃ capacity, h.capacity v = .ok capacity ∧ len ≤ capacity)
      (fun _ _ => ∃ capacity, h.capacity v = .ok capacity ∧ capacity < len) := by
  have hseq := Kind.isSequence_of_isGrowable hgrowable
  have hvalid := hs.coherent.valid slot b hb
  have hform := Body.isSequence_of_fits (hs.coherent.fits slot b hb) hseq
  obtain ⟨capacity, _, hcapacity, _⟩ := Body.exists_counts hform hvalid
  have hread := capacity_of_isSequence hslot hb hseq hform hcapacity
  refine Yields.get (Yields.read_eq (mutableSequence_eq hslot hb hgrowable) ?_)
  rcases Body.seqSetLen?_cases hform hvalid hcapacity len with
    ⟨hset, hlt⟩ | ⟨body, hset, hle, _⟩
  · exact Yields.look_eq hset (Yields.look_eq hcapacity (Yields.throw ⟨capacity, hread, hlt⟩))
  · exact Yields.look_eq hset (Yields.set ⟨capacity, hread, hle⟩)

end Writing

/-- A list accepts what its items and its capacity say. -/
theorem IsList.acceptsAs (hlist : h.IsList slot kind items) (hs : h.Sound admits 0)
    (hslot : v.slot? = some slot) : h.AcceptsAs admits v kind items := by
  obtain ⟨b, hb, rfl, hgrowable, rfl⟩ := hlist
  have hextend (roots more : List Value) (hpassed : ∀ w ∈ roots ++ more, h.Usable admits w) :=
    seqExtend_accepts hs hslot hb hgrowable (fun w hw => hpassed w (List.mem_append_left _ hw))
      fun w hw => hpassed w (List.mem_append_right _ hw)
  refine ⟨fun index item hitem => seqSet_accepts hs hslot hb hgrowable index hitem, hextend,
    fun roots item hpassed => ?_, seqPop_accepts hs hslot hb hgrowable,
    seqSetLen_accepts hs hslot hb hgrowable⟩
  refine Yields.mono (hextend roots [item] hpassed) (by simp) (by simp)

/-! ## Elements -/

omit [Digest] in
/-- A sequence gives back a number that it takes. -/
theorem view_element {item : Value} (htakes : kind.Takes item) :
    (kind.element item).view = item.view := by
  rw [Kind.element]
  split
  next largest hmax =>
    obtain ⟨n, hview, _⟩ := htakes largest hmax
    obtain ⟨_, rfl⟩ := Value.view_eq_smallInt_iff.mp hview
    rw [hview, Value.view_ofInline_smallInt, Value.signedPayload, Value.payload_ofInline]
    rfl
  next => rfl

omit [Digest] in
/-- It gives it back in the word in which numbers are made. -/
theorem element_smallInt (kind : Kind) {n : Int} {item : Value}
    (hitem : Value.smallInt n = .ok item) : kind.element item = item := by
  rw [Kind.element]
  split
  next =>
    rw [Value.smallInt] at hitem
    split at hitem
    next =>
      cases hitem
      rw [Value.payload_ofInline]
    next => cases hitem
  next => rfl

/-- A sequence that may grow is a list. What is read from it is what the list beside it has, its
length is within its capacity, and it takes what its kind takes. Numbers that it takes are given
back. -/
theorem Traced.refines_list (ht : Traced admits slot h kind items) (hslot : v.slot? = some slot) :
    h.ReadsAs v kind items ∧ h.AcceptsAs admits v kind items ∧
      (∀ item, kind.Takes item → (kind.element item).view = item.view) ∧
      ∀ n item, Value.smallInt n = .ok item → kind.element item = item :=
  ⟨ht.isList.readsAs ht.reachable.sound.coherent hslot,
    ht.isList.acceptsAs ht.reachable.sound hslot, fun _ => view_element,
    fun _ _ => element_smallInt kind⟩

end Digest

/-- The two bytes of an array are cut to one and brought back to two, and one more is added. This
takes a collection, since other bytes have used up the memory meanwhile. -/
theorem exists_traced_cramped : ∃ h : Heap,
    Traced (fun _ => True) 2 h .byteArray ([1, 0, 3].map small) ∧ h.collections = 1 := by
  refine ⟨_, .done [] (.seqAppend (Value.ofSlot 2) (small 3))
    (.done [] (.seqSetLen (Value.ofSlot 2) 2) (.done [] (.seqPop (Value.ofSlot 2))
      (.done [Value.ofSlot 0, Value.ofSlot 2] (.newBytes (Array.replicate 56 7))
        (.made [Value.ofSlot 0] (.newByteArray #[1, 2]) (reachable_cramped _) ?_ rfl rfl rfl)
        ?_ rfl (Or.inl rfl)) ?_ rfl (Or.inl rfl)) ?_ rfl (Or.inl rfl))
    ?_ (by cbv) (Or.inr (.start List.mem_cons_self rfl)), rfl⟩
  all_goals
    refine fun w hw => usable_of_passes (List.all_eq_true.mp ?_ w hw)
    decide +kernel

theorem refines_list_cramped : ∃ h : Heap,
    Traced (fun _ => True) 2 h .byteArray ([1, 0, 3].map small) ∧
      h.len (Value.ofSlot 2) = .ok 3 ∧ h.seqGet (Value.ofSlot 2) 1 = .ok (small 0) := by
  obtain ⟨h, ht, _⟩ := exists_traced_cramped
  have hslot : (Value.ofSlot 2).slot? = some 2 := rfl
  obtain ⟨hreads, _⟩ := ht.refines_list hslot
  exact ⟨h, ht, hreads.len_eq, hreads.get_eq 1 (small 0) rfl⟩

end Heap

end ObjectHeap
