import ObjectHeap.Attribute
import ObjectHeap.Proofs.Tables

/-! # Attributes

Binding and looking up names, and the two constructors that allocate twice. If the second
allocation of such a constructor is refused, the empty dict of the first stays behind, and nothing
refers to it.
-/

namespace ObjectHeap.Heap

variable [Digest] {admits : Value → Prop} {h h' : Heap} {roots starts : List Value} {v : Value}

/-! ## Records with dicts -/

section Records

variable (hs : h.Sound admits 0)
include hs

theorem classBody_gives (hv : h.Usable admits v) :
    Gives admits (h.classBody v) fun c => ∃ slot b, v.slot? = some slot ∧
      h.block? slot = some b ∧ b.header.kind = .classObj ∧ b.body = .classObj c := by
  refine recordPart_gives hs.coherent hv fun body hfits => ?_
  cases body <;> first | exact absurd hfits Bool.false_ne_true | exact ⟨_, rfl, rfl⟩

theorem instanceBody_gives (hv : h.Usable admits v) :
    Gives admits (h.instanceBody v) fun i => ∃ slot b, v.slot? = some slot ∧
      h.block? slot = some b ∧ b.header.kind = .instanceObj ∧ b.body = .instanceObj i := by
  refine recordPart_gives hs.coherent hv fun body hfits => ?_
  cases body <;> first | exact absurd hfits Bool.false_ne_true | exact ⟨_, rfl, rfl⟩

theorem moduleBody_gives (hv : h.Usable admits v) :
    Gives admits (h.moduleBody v) fun m => ∃ slot b, v.slot? = some slot ∧
      h.block? slot = some b ∧ b.header.kind = .moduleObj ∧ b.body = .moduleObj m := by
  refine recordPart_gives hs.coherent hv fun body hfits => ?_
  cases body <;> first | exact absurd hfits Bool.false_ne_true | exact ⟨_, rfl, rfl⟩

/-- The values of a list or tuple are the elements of its block. -/
theorem objects_reads (hv : h.Usable admits v) :
    Gives admits (h.objects v) fun items => ∃ slot b seq, v.slot? = some slot ∧
      h.block? slot = some b ∧ b.header.kind.shape = .objectSequence ∧ b.body = .objects seq ∧
      items.toList = seq.toList := by
  refine Gives.bind (expectBlock_gives hv ..) fun (slot, b) hblock => ?_
  obtain ⟨hslot, hb, hshape⟩ := hblock
  have hshape := beq_iff_eq.mp hshape
  obtain ⟨seq, hbody⟩ := Body.exists_objects (hs.coherent.fits slot b hb) hshape
  dsimp only
  rw [hbody]
  exact Gives.ok ⟨slot, b, seq, hslot, hb, hshape, hbody, rfl⟩

/-- The objects in a list or tuple are usable. -/
theorem objects_gives (hv : h.Usable admits v) :
    Gives admits (h.objects v) fun items => ∀ w ∈ items.toList, h.Usable admits w := by
  refine Gives.mono (objects_reads hs hv) fun items hread w hw => ?_
  obtain ⟨slot, b, seq, _, hb, _, hbody, heq⟩ := hread
  have hw' : w ∈ seq.toList := heq ▸ hw
  refine hs.coherent.edges_usable slot b hb w ?_
  rw [hbody]
  exact hw'

/-! ## Binding a name -/

/-- The dict in which an object binds names is one of the values that the object refers to. -/
theorem attributeDict_gives (hv : h.Usable admits v) :
    Gives admits (h.attributeDict v) fun dict => ∃ slot b, v.slot? = some slot ∧
      h.block? slot = some b ∧ dict ∈ b.body.edges := by
  refine Gives.look (kindOf_looks hv) fun kind _ => ?_
  split
  next =>
    refine Gives.bind (instanceBody_gives hs hv) fun i hfound => Gives.ok ?_
    obtain ⟨slot, b, hslot, hb, _, hbody⟩ := hfound
    exact ⟨slot, b, hslot, hb, by simp [hbody, Body.edges]⟩
  next =>
    refine Gives.bind (classBody_gives hs hv) fun c hfound => Gives.ok ?_
    obtain ⟨slot, b, hslot, hb, _, hbody⟩ := hfound
    exact ⟨slot, b, hslot, hb, by simp [hbody, Body.edges]⟩
  next =>
    refine Gives.bind (moduleBody_gives hs hv) fun m hfound => Gives.ok ?_
    obtain ⟨slot, b, hslot, hb, _, hbody⟩ := hfound
    exact ⟨slot, b, hslot, hb, by simp [hbody, Body.edges]⟩
  next => exact Gives.refuse ..

/-- Once the values protected are let go, the entry is stored all the same. -/
theorem Stores.unprotect {values : List Value} {slot mark : Nat} {key value : Value}
    (hstores : (h.protectAll values).Stores slot key value h') (hkey : h.Usable admits key) :
    h.Stores slot key value (h'.releaseRegisters mark) := by
  obtain ⟨hash, t, t', hhash, hbefore, hafter, hbinds, htends⟩ := hstores
  have hprint : (h.protectAll values).fingerprint = h.fingerprint := fingerprint_congr rfl
  exact ⟨hash, t, t', (hs.coherent.hashOf_protectAll values hkey).symm.trans hhash, hbefore, hafter,
    hprint ▸ hbinds, htends⟩

omit hs [Digest] in
/-- The table in which an object binds names. -/
def attributeTarget (h : Heap) (object : Value) : Target :=
  match h.attributeDict object with
  | .ok dict => .table dict
  | .error _ => .nothing

/-- An attribute is stored in the dictionary of its object, under its name. -/
theorem setAttr_stores (hroots : ∀ w ∈ roots, h.Usable admits w) {object name value : Value}
    (hobject : h.Usable admits object) (hname : h.Usable admits name)
    (hvalue : h.Usable admits value) :
    Yields admits (setAttr roots object name value) h
      (fun _ h' =>
        h.Completed admits (roots ++ [object, name, value]) (h.attributeTarget object) [] h' ∧
        ∃ dict slot, h.attributeTarget object = .table dict ∧ dict.slot? = some slot ∧
          h.Held (roots ++ [object, name, value]) slot ∧ h.Stores slot name value h')
      (h.Declined admits (roots ++ [object, name, value])) := by
  refine Yields.get (Yields.read (attributeDict_gives hs hobject).with_eq (Declined.refl hs _)
    fun dict hdict => ?_)
  obtain ⟨⟨slot, b, hslot, hb, hedge⟩, hdict⟩ := hdict
  have hp : (h.protectAll [object]).Sound admits 0 := hs.protectAll (by simpa using hobject)
  -- the object holds its dict
  have hheld : ∀ s, h.Held (roots ++ [dict, name, value] ++ [object]) s ↔
      h.Held (roots ++ [object, name, value]) s := by
    refine held_congr (fun w hw => ?_) fun w hw => holds_of_mem (by grind)
    by_cases hw' : w = dict
    · subst hw'
      exact fun next hnext => (Held.start (by simp) hslot).edge hb hedge hnext
    · exact holds_of_mem (by grind)
  have htarget : h.attributeTarget object = .table dict := by rw [attributeTarget, hdict]
  refine yields_protecting (dictPut_stores hp hroots (hs.coherent.edges_usable slot b hb dict hedge)
    hname hvalue) (fun _ h' hdone => ?_) fun _ _ hd => hd.unprotect.starts_congr hheld
  obtain ⟨hdone, dictSlot, hdictSlot, hstores⟩ := hdone
  exact ⟨htarget ▸ (hdone.unprotect rfl).starts_congr hheld, dict, dictSlot, htarget, hdictSlot,
    (hheld dictSlot).mp (.start (by simp) hdictSlot), hstores.unprotect hs hname⟩

end Records

/-! ## Looking up a name -/

/-- How a search along classes may end: with a result of which `Q` holds, refused, or with a
fault. Besides the excused ones there is that of a chain of bases without an end. -/
def Finds {α : Type} (admits : Value → Prop) (x : Except Stop α) (Q : α → Prop) : Prop :=
  match x with
  | .ok a => Q a
  | .error (.refused _) => True
  | .error (.fault fault) => Excused admits fault ∨ fault = .endless

variable {α β : Type}

omit [Digest] in
/-- What is found implies whatever its result implies. -/
theorem Finds.mono {x : Except Stop α} {P P' : α → Prop} (hx : Finds admits x P)
    (h : ∀ a, P a → P' a) : Finds admits x P' := by
  cases x with
  | ok a => exact h a hx
  | error stop => cases stop <;> exact hx

omit [Digest] in
theorem Finds.map {x : Except Stop α} {f : α → β} {P : β → Prop}
    (hx : Finds admits x fun a => P (f a)) : Finds admits (f <$> x) P := by
  cases x with
  | ok => exact hx
  | error stop => cases stop <;> exact hx

omit [Digest] in
/-- A search that is never endless finds what it gives. -/
theorem Finds.of_gives {x : Except Stop α} {P : α → Prop} (hx : Gives admits x P) :
    Finds admits x P := by
  cases x with
  | ok => exact hx
  | error stop =>
      cases stop with
      | refused => exact trivial
      | fault => exact Or.inl hx

omit [Digest] in
/-- A search may start with a check. -/
theorem Finds.read {x : Except Stop α} {f : α → Except Stop β} {P : α → Prop} {P' : β → Prop}
    (hx : Gives admits x P) (hf : ∀ a, P a → Finds admits (f a) P') :
    Finds admits (x >>= f) P' := by
  cases x with
  | ok a => exact hf a hx
  | error stop =>
      cases stop with
      | refused => exact trivial
      | fault => exact Or.inl hx

omit [Digest] in
theorem Finds.result {x : Except Stop α} {P : α → Prop} (hx : Finds admits x P) {a : α}
    (heq : x = .ok a) : P a := by
  subst heq
  exact hx

omit [Digest] in
/-- The fault of a search is excused, unless the search is endless. -/
theorem Finds.excuse {x : Except Stop α} {P : α → Prop} (hx : Finds admits x P) {fault : Fault}
    (heq : x = .error (.fault fault)) : Excused admits fault ∨ fault = .endless := by
  subst heq
  exact hx

omit [Digest] in
/-- A search goes on where another one has found nothing. -/
theorem Finds.orElse {x y : Except Stop (Option Value)} {Q : Option Value → Prop}
    (hx : Finds admits x Q) (hy : Finds admits y Q) :
    Finds admits (do
      match ← x with
      | some found => return some found
      | none => y) Q := by
  cases x with
  | ok found =>
      cases found with
      | none => exact hy
      | some w => exact hx
  | error stop => exact hx

omit [Digest] in
/-- Of several searches, the first one that finds anything counts. -/
theorem firstFound_finds {search : Value → Except Stop (Option Value)} {items : List Value}
    {Q : Option Value → Prop} (hnone : Q none) (hsearch : ∀ w ∈ items, Finds admits (search w) Q) :
    Finds admits (firstFound search items) Q := by
  induction items with
  | nil => exact hnone
  | cons item rest ih =>
      exact Finds.orElse (hsearch item (List.mem_cons_self ..))
        (ih fun w hw => hsearch w (List.mem_cons_of_mem _ hw))

/-- By induction on the length of the walk: an attribute that a class or its bases bind is
usable. -/
theorem classAttrWithin_finds (hs : h.Sound admits 0) {name : Value}
    (hname : h.Usable admits name) {length : Nat} (hv : h.Usable admits v) :
    Finds admits (h.classAttrWithin name length v) fun found => ∀ w, found = some w →
      h.Usable admits w := by
  have hnone (w : Value) (h' : none = some w) : h.Usable admits w := by cases h'
  induction length generalizing v with
  | zero => exact Or.inr rfl
  | succ length ih =>
      refine Finds.read (classBody_gives hs hv) fun c hfound => ?_
      obtain ⟨slot, b, _, hb, _, hbody⟩ := hfound
      have hedges := hs.coherent.edges_usable slot b hb
      rw [hbody] at hedges
      refine Finds.orElse (Finds.of_gives (dictGet_gives hs.coherent
        (hedges c.methods (by simp [Body.edges])) hname)) ?_
      split
      next =>
        refine Finds.read (objects_gives hs (hedges c.bases (by simp [Body.edges])))
          fun items hitems => ?_
        exact firstFound_finds hnone fun w hw => ih (hitems w hw)
      next => exact hnone

/-- An attribute that is found is usable. -/
theorem getAttr_finds (hs : h.Sound admits 0) {object name : Value}
    (hobject : h.Usable admits object) (hname : h.Usable admits name) :
    Finds admits (h.getAttr object name) fun found => ∀ w, found = some w →
      h.Usable admits w := by
  refine Finds.read (Gives.of_looks (kindOf_looks hobject)) fun kind _ => ?_
  split
  next =>
    refine Finds.read (instanceBody_gives hs hobject) fun i hfound => ?_
    obtain ⟨slot, b, _, hb, _, hbody⟩ := hfound
    have hedges := hs.coherent.edges_usable slot b hb
    rw [hbody] at hedges
    exact Finds.orElse (Finds.of_gives (dictGet_gives hs.coherent
      (hedges i.attributes (by simp [Body.edges])) hname))
      (classAttrWithin_finds hs hname (hedges i.classRef (by simp [Body.edges])))
  next =>
    refine Finds.read (moduleBody_gives hs hobject) fun m hfound => ?_
    obtain ⟨slot, b, _, hb, _, hbody⟩ := hfound
    have hedges := hs.coherent.edges_usable slot b hb
    rw [hbody] at hedges
    exact Finds.of_gives (dictGet_gives hs.coherent
      (hedges m.globals (by simp [Body.edges])) hname)
  next => exact classAttrWithin_finds hs hname hobject
  next => exact trivial

/-! ## Constructors that allocate twice -/

/-- How a refused operation may leave a heap. Blocks that were not held may be gone. A block that
was not there before is a dict that nothing holds, there is one at most, and only if the operation
may leave one. -/
structure Retreats (admits : Value → Prop) (h : Heap) (starts : List Value) (leavesDict : Bool)
    (refusal : Refusal) (h' : Heap) : Prop where
  sound : h'.Sound admits 0
  same : refusal.isOutOfMemory = false → h' = h
  registers_eq : h'.registers = h.registers
  carries : h.Carries starts .nothing h'
  before : ∃ extra, ∀ slot block, h'.block? slot = some block → h.block? slot = some block ∨
    leavesDict = true ∧ slot = extra ∧ block.header.kind = .dict ∧ ¬ h'.Held starts slot

/-- A retreat keeps what is held. -/
theorem Retreats.kept {leavesDict : Bool} {refusal : Refusal}
    (hr : h.Retreats admits starts leavesDict refusal h') (slot : Nat) (block : Block)
    (hblock : h.block? slot = some block) (hheld : h.Held starts slot) :
    h'.block? slot = some block :=
  hr.carries.kept hblock (Or.inr hheld) (Option.some_ne_none slot).symm

theorem Retreats.usable {leavesDict : Bool} {refusal : Refusal}
    (hr : h.Retreats admits starts leavesDict refusal h') (hv : h.Usable admits v)
    (hheld : h.Holds starts v) : h'.Usable admits v :=
  hr.carries.usable hv fun slot hslot => Or.inr (hheld slot hslot)

/-- A refusal that leaves nothing behind is a retreat. -/
theorem Declined.retreats {refusal : Refusal} (hd : h.Declined admits starts refusal h')
    (leavesDict : Bool) : h.Retreats admits starts leavesDict refusal h' :=
  ⟨hd.sound, hd.same, hd.pruned.registers_eq, hd.pruned.carries,
    0, fun slot block hb => Or.inl (hd.pruned.before slot block hb)⟩

/-- What was held before an allocation is held after it. -/
theorem Allocated.held {kind : Kind} {body : Body} {slot s : Nat}
    (hnew : h.Allocated admits starts kind body slot h') (hheld : h.Held starts s) :
    h'.Held starts s :=
  hheld.transfer (fun _ hv _ hslot => .start hv hslot)
    (fun _ hv _ hslot => .register (hnew.registers_eq ▸ hv) hslot)
    (fun s block hs hb => ⟨block, (hnew.kept s block hb hs).2, rfl, fun _ hv => hv⟩)

/-- What is held beside a new block without edges was held before. -/
theorem Allocated.held_or_eq {starts' : List Value} {kind : Kind} {body : Body} {slot s : Nat}
    (hnew : h.Allocated admits starts kind body slot h') (hedges : body.edges = [])
    (hstarts : ∀ v ∈ starts', ∀ s, v.slot? = some s → s = slot ∨ h.Held starts s)
    (hheld : h'.Held starts' s) : s = slot ∨ h.Held starts s := by
  induction hheld with
  | start hv hslot => exact hstarts _ hv _ hslot
  | register hv hslot => exact Or.inr (.register (hnew.registers_eq ▸ hv) hslot)
  | @pinned s block hblock hpinned =>
      by_cases heq : s = slot
      · exact Or.inl heq
      · exact Or.inr (.pinned (hnew.before s block heq hblock) hpinned)
  | @edge s next block v _ hblock hv hslot ih =>
      by_cases heq : s = slot
      · subst heq
        obtain ⟨found, hfound, _, rfl, _⟩ := hnew.block
        cases hblock.symm.trans hfound
        rw [hedges] at hv
        cases hv
      · exact Or.inr ((ih.resolve_left heq).edge (hnew.before s block heq hblock) hv hslot)

/-- No value that is held refers to a new block. -/
theorem Allocated.slot?_ne {kind : Kind} {body : Body} {slot : Nat}
    (hnew : h.Allocated admits starts kind body slot h') (hv : h.Usable admits v)
    (hheld : h.Holds starts v) : v.slot? ≠ some slot := by
  intro hslot
  obtain ⟨block, hblock⟩ := hv.block? hslot
  exact (hnew.kept slot block hblock (hheld slot hslot)).1 rfl

/-- The dict that a refused second allocation leaves is not held. -/
theorem Allocated.not_held {args : List Value} {kind : Kind} {body : Body} {slot : Nat}
    {mid : Heap} (hs : h.Sound admits 0) (hroots : ∀ w ∈ roots, h.Usable admits w)
    (hargs : ∀ w ∈ args, h.Usable admits w)
    (hnew : (h.protectAll args).Allocated admits roots kind body slot mid)
    (hregisters : h'.registers = h.registers)
    (hbefore : ∀ s block, h'.block? s = some block → mid.block? s = some block) :
    ¬ h'.Held (roots ++ args) slot := by
  intro hheld
  have hfresh : ∀ s, h'.Held (roots ++ args) s → s ≠ slot := by
    intro s hs'
    induction hs' with
    | start hv hslot =>
        rintro rfl
        rcases List.mem_append.mp hv with hv | hv
        · exact hnew.slot?_ne (hroots _ hv) (holds_of_mem hv) hslot
        · exact hnew.slot?_ne (hargs _ hv)
            (fun _ => .register (mem_protectAll.mpr (Or.inr hv))) hslot
    | register hv hslot =>
        rintro rfl
        rw [hregisters] at hv
        exact hnew.slot?_ne (hs.coherent.registers_usable _ hv)
          (fun _ => .register (mem_protectAll.mpr (Or.inl hv))) hslot
    | pinned hblock hpinned =>
        rintro rfl
        obtain ⟨found, hfound, _, _, hunpinned⟩ := hnew.block
        cases (hbefore _ _ hblock).symm.trans hfound
        rw [hpinned] at hunpinned
        cases hunpinned
    | edge _ hblock hv hslot _ =>
        rintro rfl
        exact hnew.unreferenced _ _ (hbefore _ _ hblock) _ hv hslot
  exact hfresh slot hheld rfl

omit [Digest] in
theorem recordPart_eq {α : Type} {slot : Nat} {b : Block} {part? : Body → Option α} {part : α}
    (hslot : v.slot? = some slot) (hb : h.block? slot = some b) (hpart : part? b.body = some part) :
    h.recordPart v b.header.kind part? = .ok part := by
  simp only [recordPart, record_eq hslot hb, bind, Except.bind, hpart]
  rfl

/-- Whether blocks with a payload of some form bind names in the dict that is part of it. -/
def BindsIn (kind : Kind) (form : Value → Body) : Prop :=
  ∀ (h : Heap) v slot b dict, v.slot? = some slot → h.block? slot = some b →
    b.header.kind = kind → b.body = form dict → h.attributeDict v = .ok dict

omit [Digest] in
/-- An instance binds its attributes in the dictionary that it was made with. -/
theorem bindsIn_instance (classRef : Value) :
    BindsIn .instanceObj fun attributes => .instanceObj { classRef, attributes } := by
  intro h v slot b dict hslot hb hkind hbody
  have hread : h.instanceBody v = .ok { classRef, attributes := dict } := by
    rw [instanceBody, ← hkind]
    exact recordPart_eq hslot hb (by rw [hbody])
  rw [attributeDict, kindOf_eq hslot hb, hkind]
  change (h.instanceBody v >>= _) = _
  rw [hread]
  rfl

omit [Digest] in
/-- A module binds its names in the dictionary that it was made with. -/
theorem bindsIn_module (name : Value) :
    BindsIn .moduleObj fun globals => .moduleObj { name, globals } := by
  intro h v slot b dict hslot hb hkind hbody
  have hread : h.moduleBody v = .ok { name, globals := dict } := by
    rw [moduleBody, ← hkind]
    exact recordPart_eq hslot hb (by rw [hbody])
  rw [attributeDict, kindOf_eq hslot hb, hkind]
  change (h.moduleBody v >>= _) = _
  rw [hread]
  rfl

/-- Whether a value binds names in a dict that is new. -/
def Outfitted (h : Heap) (starts : List Value) (v : Value) (h' : Heap) : Prop :=
  ∃ dict, h'.attributeDict v = .ok dict ∧ h.Fresh starts h' dict ∧ h'.contains dict = true

section WithDict

variable {arg dict : Value} {slots slot : Nat} {mid : Heap}
  (hnew : (h.protectAll [arg]).Allocated admits roots .dict (.hash (.blank slots true)) slot mid)
  (hslot : dict.slot? = some slot)
include hnew hslot

/-- What holds the argument and the new dict besides the roots carries what the roots have held
before the dict was made. -/
theorem Allocated.carries_next (hnext : mid.Carries (roots ++ [arg, dict]) .nothing h') :
    (h.protectAll [arg]).Carries roots .nothing h' := by
  have hfirst := hnew.carries fun t ht => by cases ht; exact ProbeTable.unused_blank ..
  refine hfirst.trans hnext (fun s hheld => ?_) fun s b hb hsurvives hheld => ?_
  · exact (hnew.held hheld).mono fun w hw => holds_of_mem (List.mem_append_left _ hw)
  · refine (hnew.held_or_eq ?_ (fun w hw s hs => ?_) hheld).resolve_left
      (hnew.survives hb hsurvives).1
    · simp [Body.edges, ProbeTable.edges, ProbeTable.toList_blank]
    · rw [List.mem_append, List.mem_cons, List.mem_singleton] at hw
      rcases hw with hw | rfl | rfl
      · exact Or.inr (.start hw hs)
      -- the argument is held by a register
      · exact Or.inr (.register (mem_protectAll.mpr (Or.inr List.mem_cons_self)) hs)
      · exact Or.inl (Option.some.inj (hs.symm.trans hslot))

/-- The record that is made beside the dict binds names in it. -/
theorem Allocated.outfits {kind : Kind} {form : Value → Body} {v : Value} {slot' : Nat}
    (hrecord : (form dict).IsRecord) (hbinds : BindsIn kind form) (hslot' : v.slot? = some slot')
    (hnew' : mid.Allocated admits (roots ++ [arg, dict]) kind (form dict) slot' h') :
    (h.protectAll [arg]).Completed admits roots .fresh [v] h' ∧
      (h.protectAll [arg]).Outfitted roots v h' := by
  obtain ⟨b, hb, _⟩ := hnew.block
  obtain ⟨b', hb', hkind', hbody', _⟩ := hnew'.block
  have hfirst := hnew.carries fun t ht => by cases ht; exact ProbeTable.unused_blank ..
  have hdone := hnew'.completed
    (fun t ht => (ht ▸ hrecord : (Body.hash t).IsRecord).elim) hslot'
  have hnext := hdone.carries.of_quiet (Or.inr rfl) .nothing
  have hheld (s : Nat) (hs : (h.protectAll [arg]).Held roots s) :
      mid.Held (roots ++ [arg, dict]) s :=
    (hnew.held hs).mono fun w hw => holds_of_mem (List.mem_append_left _ hw)
  refine ⟨⟨hdone.sound, hdone.results_usable, fun hmakes w hw => ?_,
    (hnew.carries_next hslot hnext).of_quiet (Or.inl rfl) _⟩, dict,
    hbinds h' v slot' b' dict hslot' hb' hkind' hbody', ?_, ?_⟩
  · exact hfirst.fresh hnext.collections_le hheld (hdone.results_fresh hmakes w hw)
  · exact (hnew.fresh_of_slot? hslot).of_le hfirst.collections_le hnext.collections_le
  · exact (hnew'.usable (usable_of_slot? hslot hb) (holds_of_mem (by simp))).1

/-- If there is no memory for the record, the dict stays behind, and its handle was in no register
that is left. -/
theorem Allocated.retreats_next (hs : h.Sound admits 0) (hroots : ∀ w ∈ roots, h.Usable admits w)
    (harg : h.Usable admits arg) {refusal : Refusal} (hmemory : refusal.isOutOfMemory = true)
    (hd : mid.Declined admits (roots ++ [arg, dict]) refusal h') :
    h.Retreats admits (roots ++ [arg]) true refusal (h'.releaseRegisters h.registerMark) := by
  obtain ⟨b, hb, hkind, _⟩ := hnew.block
  have hregisters : (h'.releaseRegisters h.registerMark).registers = h.registers :=
    releaseRegisters_protectAll (hd.pruned.registers_eq.trans hnew.registers_eq)
  refine ⟨hd.sound.releaseRegisters _, fun hother => ?_, hregisters,
    (hnew.carries_next hslot hd.pruned.carries).unprotect rfl, slot, fun s block hblock => ?_⟩
  · rw [hmemory] at hother
    cases hother
  · have hmid := hd.pruned.before s block hblock
    by_cases heq : s = slot
    · subst heq
      cases hb.symm.trans hmid
      exact Or.inr ⟨rfl, rfl, hkind,
        hnew.not_held hs hroots (by simpa using harg) hregisters hd.pruned.before⟩
    · exact Or.inl (hnew.before s block heq hmid)

end WithDict

/-- A record with a new dict beside its other value. -/
theorem newWithDict_yields (hs : h.Sound admits 0) (hroots : ∀ w ∈ roots, h.Usable admits w)
    {arg : Value} (harg : h.Usable admits arg) {kind : Kind} {form : Value → Body}
    (hfits : ∀ dict, (form dict).fits kind = true) (hrecord : ∀ dict, (form dict).IsRecord)
    (hvalid : ∀ dict, (form dict).Valid) (hedges : ∀ dict, (form dict).edges = [arg, dict])
    (hbinds : BindsIn kind form) :
    Yields admits (protecting [arg] do
      let dict ← newDict roots 0
      allocate roots kind (form dict)) h
      (fun v h' => h.Completed admits (roots ++ [arg]) .fresh [v] h' ∧
        h.Outfitted (roots ++ [arg]) v h')
      (h.Retreats admits (roots ++ [arg]) true) := by
  have hp : (h.protectAll [arg]).Sound admits 0 := hs.protectAll (by simpa using harg)
  have hstep : Yields admits (do
      let dict ← newDict roots 0
      allocate roots kind (form dict)) (h.protectAll [arg])
      (fun v h' => (h.protectAll [arg]).Completed admits roots .fresh [v] h' ∧
        (h.protectAll [arg]).Outfitted roots v h')
      (fun refusal h' =>
        h.Retreats admits (roots ++ [arg]) true refusal (h'.releaseRegisters h.registerMark)) := by
    refine Yields.bind ((newTable_yields hp hroots (fun _ => rfl) 0).mono (fun _ _ hv => hv)
      fun _ _ hd => hd.2.unprotect.retreats true) fun dict mid hdict => ?_
    obtain ⟨slots, _, slot, _, _, _, hslot, hnew⟩ := hdict
    obtain ⟨b, hb, _⟩ := hnew.block
    have ha : mid.Accepts admits kind (form dict) := by
      refine accepts_record (hfits dict) (hrecord dict) (hvalid dict) fun w hw => ?_
      rw [hedges dict, List.mem_cons, List.mem_singleton] at hw
      rcases hw with rfl | rfl
      · exact hnew.usable harg fun _ =>
          .register (mem_protectAll.mpr (Or.inr List.mem_cons_self))
      · exact usable_of_slot? hslot hb
    have hnext : Yields admits _ mid _ _ := allocate_yields hnew.sound
      (fun w hw => hnew.usable (hroots w hw) (holds_of_mem hw)) ha
    rw [hedges dict] at hnext
    refine hnext.mono (fun v h' hv => ?_) fun refusal h' hd =>
      hnew.retreats_next hslot hs hroots harg hd.1 hd.2
    obtain ⟨slot', hslot', hnew'⟩ := hv
    exact hnew.outfits hslot (hrecord dict) hbinds hslot' hnew'
  refine yields_protecting hstep (fun v h' hmade => ?_) fun _ _ hd => hd
  obtain ⟨hdone, dict, hdict, hfresh, hcontains⟩ := hmade
  exact ⟨hdone.unprotect rfl, dict, hdict, hfresh.unprotect, hcontains⟩

/-- A new instance gets a new dictionary. A refusal may leave the dictionary behind. -/
theorem newInstance_yields (hs : h.Sound admits 0) (hroots : ∀ w ∈ roots, h.Usable admits w)
    {classRef : Value} (hclass : h.Usable admits classRef) :
    Yields admits (newInstance roots classRef) h
      (fun v h' => h.Completed admits (roots ++ [classRef]) .fresh [v] h' ∧
        h.Outfitted (roots ++ [classRef]) v h')
      (h.Retreats admits (roots ++ [classRef]) true) := by
  refine Yields.get (Yields.read (classBody_gives hs hclass)
    (fun refusal => (Declined.refl hs _ refusal).retreats true) fun _ _ => ?_)
  exact newWithDict_yields hs hroots hclass (fun _ => rfl) (fun _ => trivial) (fun _ => trivial)
    (fun _ => rfl) (bindsIn_instance classRef)

/-- A new module gets a new dictionary. A refusal may leave the dictionary behind. -/
theorem newModule_yields (hs : h.Sound admits 0) (hroots : ∀ w ∈ roots, h.Usable admits w)
    {name : Value} (hname : h.Usable admits name) :
    Yields admits (newModule roots name) h
      (fun v h' => h.Completed admits (roots ++ [name]) .fresh [v] h' ∧
        h.Outfitted (roots ++ [name]) v h')
      (h.Retreats admits (roots ++ [name]) true) :=
  newWithDict_yields hs hroots hname (fun _ => rfl) (fun _ => trivial) (fun _ => trivial)
    (fun _ => rfl) (bindsIn_module name)

end ObjectHeap.Heap
