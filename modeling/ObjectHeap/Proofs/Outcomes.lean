import Mathlib.Tactic.Common
import ObjectHeap.Proofs.Holding

/-! # Outcomes of steps

Three predicates say how a step may end: `Looks` for one that can only fault, `Gives` for one
that can be refused as well, and `Yields` for one that changes a heap. A fault is *excused* if
it comes from decoding a malformed word, and only words that the caller was free to pass are
excuses. No other fault may occur, so each predicate rules out all faults but these.
-/

namespace ObjectHeap

/-- A fault that comes from decoding a word which the caller may pass. -/
def Excused (admits : Value → Prop) (fault : Fault) : Prop :=
  ∃ v, admits v ∧ v.view = .error fault

/-- A value that is inline or refers to a block, and that can be decoded unless the caller is
to blame. -/
def Heap.Usable (admits : Value → Prop) (h : Heap) (v : Value) : Prop :=
  h.contains v = true ∧ ((∃ view, v.view = .ok view) ∨ admits v)

variable {admits : Value → Prop} {α β : Type}

/-- The step succeeds with a result of which `Q` holds, unless a fault is excused. -/
def Looks (admits : Value → Prop) (x : Except Fault α) (Q : α → Prop) : Prop :=
  match x with
  | .ok a => Q a
  | .error fault => Excused admits fault

/-- The step is refused or succeeds with a result of which `Q` holds, unless a fault is
excused. -/
def Gives (admits : Value → Prop) (x : Except Stop α) (Q : α → Prop) : Prop :=
  match x with
  | .ok a => Q a
  | .error (.refused _) => True
  | .error (.fault fault) => Excused admits fault

/-- From the heap `h`, the step succeeds with `Q` or is refused with `R`, unless a fault is
excused. -/
def Yields (admits : Value → Prop) (step : HeapM α) (h : Heap) (Q : α → Heap → Prop)
    (R : Refusal → Heap → Prop) : Prop :=
  match step h with
  | .ok a h' => Q a h'
  | .error (.refused refusal) h' => R refusal h'
  | .error (.fault fault) _ => Excused admits fault

@[simp] theorem liftM_ok_bind (a : α) (f : α → Except Stop β) :
    (liftM (.ok a : Except Fault α) : Except Stop α) >>= f = f a := rfl

/-- A lookup that succeeds is the same as its result in what follows. -/
theorem liftM_bind_eq {x : Except Fault α} {a : α} (hx : x = .ok a) (f : α → Except Stop β) :
    (liftM x : Except Stop α) >>= f = f a := hx ▸ rfl

theorem modifyGet_apply (f : Heap → α × Heap) (h : Heap) :
    (modifyGet f : HeapM α) h = .ok (f h).1 (f h).2 := rfl

/-! ## Steps that can only fault -/

namespace Looks

/-- A lookup whose result is known looks at what holds of that result. -/
theorem of_eq {x : Except Fault α} {a : α} {Q : α → Prop} (hx : x = .ok a) (h : Q a) :
    Looks admits x Q := hx ▸ h

theorem bind_eq {x : Except Fault α} {a : α} {f : α → Except Fault β} {P : β → Prop}
    (hx : x = .ok a) (hf : Looks admits (f a) P) : Looks admits (x >>= f) P := hx ▸ hf

/-- Lookups compose: the second one starts from what the first one found. -/
theorem bind {x : Except Fault α} {f : α → Except Fault β} {Q : α → Prop} {P : β → Prop}
    (hx : Looks admits x Q) (hf : ∀ a, Q a → Looks admits (f a) P) :
    Looks admits (x >>= f) P := by
  cases x with
  | ok a => exact hf a hx
  | error => exact hx

end Looks

/-! ## Steps that can be refused -/

namespace Gives

theorem ok {a : α} {Q : α → Prop} (h : Q a) : Gives admits (.ok a) Q := h

theorem refuse (refusal : Refusal) (Q : α → Prop) : Gives admits (refuse refusal) Q := trivial

/-- What a result implies is given too. -/
theorem mono {x : Except Stop α} {Q P : α → Prop} (hx : Gives admits x Q)
    (h : ∀ a, Q a → P a) : Gives admits x P := by
  cases x with
  | ok a => exact h a hx
  | error stop => cases stop <;> exact hx

/-- Checks compose: the second one starts from what the first one gave. -/
theorem bind {x : Except Stop α} {f : α → Except Stop β} {Q : α → Prop} {P : β → Prop}
    (hx : Gives admits x Q) (hf : ∀ a, Q a → Gives admits (f a) P) :
    Gives admits (x >>= f) P := by
  cases x with
  | ok a => exact hf a hx
  | error stop => cases stop <;> exact hx

/-- A lookup may come first in a check, for it is never refused. -/
theorem look {x : Except Fault α} {f : α → Except Stop β} {Q : α → Prop} {P : β → Prop}
    (hx : Looks admits x Q) (hf : ∀ a, Q a → Gives admits (f a) P) :
    Gives admits (liftM x >>= f) P := by
  cases x with
  | ok a => exact hf a hx
  | error => exact hx

theorem look_eq {x : Except Fault α} {a : α} {f : α → Except Stop β} {P : β → Prop}
    (hx : x = .ok a) (hf : Gives admits (f a) P) : Gives admits (liftM x >>= f) P := hx ▸ hf

theorem of_looks {x : Except Fault α} {Q : α → Prop} (hx : Looks admits x Q) :
    Gives admits (liftM x) Q := by
  cases x <;> exact hx

theorem map {x : Except Stop α} {f : α → β} {P : β → Prop}
    (hx : Gives admits x fun a => P (f a)) : Gives admits (f <$> x) P := by
  cases x with
  | ok => exact hx
  | error stop => cases stop <;> exact hx

/-- What is given holds of the result that was returned. -/
theorem result {x : Except Stop α} {Q : α → Prop} {a : α} (hx : Gives admits x Q)
    (heq : x = .ok a) : Q a := by
  subst heq
  exact hx

/-- A fault of a check that gives anything is excused. -/
theorem excuse {x : Except Stop α} {Q : α → Prop} {fault : Fault} (hx : Gives admits x Q)
    (heq : x = .error (.fault fault)) : Excused admits fault := by
  subst heq
  exact hx

/-- A result that is given is the one that the step returns. -/
theorem with_eq {x : Except Stop α} {Q : α → Prop} (hx : Gives admits x Q) :
    Gives admits x fun a => Q a ∧ x = .ok a := by
  cases x with
  | ok a => exact ⟨hx, rfl⟩
  | error stop => cases stop <;> exact hx

/-- A fold is given if each of its steps is, whatever it has gathered before. -/
theorem foldlM {items : List β} {f : α → β → Except Stop α}
    (h : ∀ acc, ∀ item ∈ items, Gives admits (f acc item) fun _ => True) (start : α) :
    Gives admits (items.foldlM f start) fun _ => True := by
  induction items generalizing start with
  | nil => exact trivial
  | cons head rest ih =>
      rw [List.foldlM_cons]
      refine bind (h start head (List.mem_cons_self ..)) fun acc _ => ?_
      exact ih (fun acc item hitem => h acc item (List.mem_cons_of_mem _ hitem)) acc

/-- What holds of each item of a list is checked one by one. -/
theorem forM {items : List β} {f : β → Except Stop PUnit} {Q : β → Prop}
    (h : ∀ item ∈ items, Gives admits (f item) fun _ => Q item) :
    Gives admits (items.forM f) fun _ => ∀ item ∈ items, Q item := by
  induction items with
  | nil => exact fun _ hmem => nomatch hmem
  | cons head rest ih =>
      refine bind (h head (List.mem_cons_self ..)) fun _ hhead => ?_
      refine mono (ih fun item hitem => h item (List.mem_cons_of_mem _ hitem)) fun _ hrest => ?_
      intro item hitem
      rcases List.mem_cons.mp hitem with rfl | hmem
      · exact hhead
      · exact hrest item hmem

end Gives

/-! ## Steps that change a heap -/

namespace Yields

variable {h : Heap} {R : Refusal → Heap → Prop}

/-- A step whose end is known yields what holds at that end. -/
theorem of_ok {step : HeapM α} {a : α} {h' : Heap} {Q : α → Heap → Prop}
    (hstep : step h = .ok a h') (hQ : Q a h') : Yields admits step h Q R := by
  unfold Yields
  rw [hstep]
  exact hQ

/-- A step that has no excuse succeeds or is refused. -/
theorem ok_or_refused {step : HeapM α} {Q : α → Heap → Prop}
    (hs : Yields (fun _ => False) step h Q R) :
    (∃ a h', step h = .ok a h' ∧ Q a h') ∨
      ∃ reason h', step h = .error (.refused reason) h' ∧ R reason h' := by
  unfold Yields at hs
  split at hs
  next heq => exact Or.inl ⟨_, _, heq, hs⟩
  next heq => exact Or.inr ⟨_, _, heq, hs⟩
  next =>
    obtain ⟨_, hfalse, _⟩ := hs
    exact hfalse.elim

/-- A step that is never refused and has no excuse succeeds. -/
theorem exists_ok {step : HeapM α} {Q : α → Heap → Prop}
    (hs : Yields (fun _ => False) step h Q fun _ _ => False) :
    ∃ a h', step h = .ok a h' ∧ Q a h' :=
  hs.ok_or_refused.resolve_right fun ⟨_, _, _, hfalse⟩ => hfalse

/-- A step that never succeeds and has no excuse is refused. -/
theorem exists_refusal {step : HeapM α}
    (hs : Yields (fun _ => False) step h (fun _ _ => False) R) :
    ∃ reason h', step h = .error (.refused reason) h' ∧ R reason h' :=
  hs.ok_or_refused.resolve_left fun ⟨_, _, _, hfalse⟩ => hfalse

/-- What a step yields holds of each end that it comes to. -/
theorem result {step : HeapM α} {Q : α → Heap → Prop} (hs : Yields admits step h Q R) {a : α}
    {h' : Heap} (hstep : step h = .ok a h') : Q a h' := by
  unfold Yields at hs
  rwa [hstep] at hs

/-- What a step yields on refusal holds of each refusal that it comes to. -/
theorem refusal {step : HeapM α} {Q : α → Heap → Prop} (hs : Yields admits step h Q R)
    {reason : Refusal} {h' : Heap} (hstep : step h = .error (.refused reason) h') :
    R reason h' := by
  unfold Yields at hs
  rwa [hstep] at hs

/-- A fault of a step that yields anything is excused. -/
theorem excuse {step : HeapM α} {Q : α → Heap → Prop} (hs : Yields admits step h Q R)
    {fault : Fault} {h' : Heap} (hstep : step h = .error (.fault fault) h') :
    Excused admits fault := by
  unfold Yields at hs
  rwa [hstep] at hs

theorem pure {a : α} {Q : α → Heap → Prop} (hQ : Q a h) :
    Yields admits (pure a : HeapM α) h Q R := hQ

theorem throw {refusal : Refusal} {Q : α → Heap → Prop} (hR : R refusal h) :
    Yields admits (throw (.refused refusal) : HeapM α) h Q R := hR

theorem throw_bind {refusal : Refusal} {f : α → HeapM β} {P : β → Heap → Prop}
    (hR : R refusal h) : Yields admits (MonadExcept.throw (.refused refusal) >>= f) h P R := hR

/-- What both ends imply is yielded too. -/
theorem mono {step : HeapM α} {Q Q' : α → Heap → Prop} {R' : Refusal → Heap → Prop}
    (hs : Yields admits step h Q R) (hQ : ∀ a h', Q a h' → Q' a h')
    (hR : ∀ refusal h', R refusal h' → R' refusal h') : Yields admits step h Q' R' := by
  unfold Yields at hs ⊢
  split
  next heq => rw [heq] at hs; exact hQ _ _ hs
  next heq => rw [heq] at hs; exact hR _ _ hs
  next heq => rw [heq] at hs; exact hs

/-- What is known of the ends of a step holds together. -/
theorem and {among : Value → Prop} {step : HeapM α} {Q Q' : α → Heap → Prop}
    {R' : Refusal → Heap → Prop} (hs : Yields among step h Q R) (hs' : Yields admits step h Q' R') :
    Yields among step h (fun a h' => Q a h' ∧ Q' a h') fun refusal h' =>
      R refusal h' ∧ R' refusal h' := by
  unfold Yields at hs hs' ⊢
  split
  next heq => rw [heq] at hs hs'; exact ⟨hs, hs'⟩
  next heq => rw [heq] at hs hs'; exact ⟨hs, hs'⟩
  next heq => rw [heq] at hs; exact hs

/-- Steps compose: the second one starts at each end of the first, and a refusal of either is a
refusal of both. -/
theorem bind {step : HeapM α} {f : α → HeapM β} {Q : α → Heap → Prop} {P : β → Heap → Prop}
    (hs : Yields admits step h Q R) (hf : ∀ a h', Q a h' → Yields admits (f a) h' P R) :
    Yields admits (step >>= f) h P R := by
  unfold Yields at hs
  change Yields admits (EStateM.bind step f) h P R
  unfold Yields EStateM.bind
  cases hstep : step h with
  | ok a h' =>
      rw [hstep] at hs
      exact hf a h' hs
  | error stop h' =>
      rw [hstep] at hs
      cases stop <;> exact hs

theorem map {step : HeapM α} {f : α → β} {P : β → Heap → Prop}
    (hs : Yields admits step h (fun a => P (f a)) R) : Yields admits (f <$> step) h P R :=
  bind hs fun _ _ hP => hP

theorem get {f : Heap → HeapM β} {P : β → Heap → Prop} (hf : Yields admits (f h) h P R) :
    Yields admits (get >>= f) h P R := hf

theorem set {h' : Heap} {P : PUnit → Heap → Prop} (hP : P ⟨⟩ h') :
    Yields admits (set h' : HeapM PUnit) h P R := hP

theorem set_bind {h' : Heap} {f : PUnit → HeapM β} {P : β → Heap → Prop}
    (hf : Yields admits (f ⟨⟩) h' P R) : Yields admits (MonadState.set h' >>= f) h P R := hf

theorem modify {f : Heap → Heap} {P : PUnit → Heap → Prop} (hP : P ⟨⟩ (f h)) :
    Yields admits (modify f : HeapM PUnit) h P R := hP

/-- A lookup in the middle of a step leaves the heap as it is. -/
theorem look {x : Except Fault α} {f : α → HeapM β} {Q : α → Prop} {P : β → Heap → Prop}
    (hx : Looks admits x Q) (hf : ∀ a, Q a → Yields admits (f a) h P R) :
    Yields admits (liftM x >>= f) h P R := by
  cases x with
  | ok a => exact hf a hx
  | error => exact hx

theorem look_eq {x : Except Fault α} {a : α} {f : α → HeapM β} {P : β → Heap → Prop}
    (hx : x = .ok a) (hf : Yields admits (f a) h P R) : Yields admits (liftM x >>= f) h P R :=
  hx ▸ hf

theorem lift_eq {x : Except Fault α} {a : α} {Q : α → Heap → Prop} (hx : x = .ok a)
    (hQ : Q a h) : Yields admits (liftM x : HeapM α) h Q R := by
  subst hx
  exact hQ

theorem read_eq {x : Except Stop α} {a : α} {f : α → HeapM β} {P : β → Heap → Prop}
    (hx : x = .ok a) (hf : Yields admits (f a) h P R) : Yields admits (liftM x >>= f) h P R :=
  hx ▸ hf

/-- A check in the middle of a step leaves the heap as it is, and what holds of the heap when
the check is refused is shown for that refusal only. -/
theorem read_or {x : Except Stop α} {f : α → HeapM β} {Q : α → Prop} {P : β → Heap → Prop}
    (hx : Gives admits x Q) (hR : ∀ refusal, x = .error (.refused refusal) → R refusal h)
    (hf : ∀ a, Q a → Yields admits (f a) h P R) : Yields admits (liftM x >>= f) h P R := by
  cases x with
  | ok a => exact hf a hx
  | error stop =>
      cases stop with
      | refused refusal => exact hR refusal rfl
      | fault => exact hx

/-- A step that only looks at the heap leaves it as it is when it is refused. -/
theorem read {x : Except Stop α} {f : α → HeapM β} {Q : α → Prop} {P : β → Heap → Prop}
    (hx : Gives admits x Q) (hR : ∀ refusal, R refusal h)
    (hf : ∀ a, Q a → Yields admits (f a) h P R) : Yields admits (liftM x >>= f) h P R :=
  read_or hx (fun refusal _ => hR refusal) hf

end Yields

/-! ## Reading a heap -/

namespace Value

variable {v : Value}

/-- A word that is no reference and of no inline kind cannot be decoded. -/
theorem view_of_inlineKind?_error {fault : Fault} (hslot : v.slot? = none)
    (hkind : v.inlineKind? = .error fault) : v.view = .error fault := by
  rw [view, hslot, hkind]
  rfl

theorem inlineKind?_ne_none (hslot : v.slot? = none) : v.inlineKind? ≠ .ok none := by
  have hinline : v.isInline = true := by
    rw [slot?] at hslot
    split at hslot
    · assumption
    · cases hslot
  rw [inlineKind?, if_pos hinline]
  split
  · split <;> simp
  · simp

/-- A word without a kind is malformed in its tag. -/
theorem inlineKind?_eq_error {fault : Fault} (hkind : v.inlineKind? = .error fault) :
    fault = .malformedTag v.tagBits v.word := by
  unfold inlineKind? at hkind
  split at hkind
  next =>
    split at hkind
    next =>
      split at hkind
      next => cases hkind
      next => exact (Except.error.inj hkind).symm
    next => exact (Except.error.inj hkind).symm
  next => cases hkind

/-- Only malformed words cannot be decoded. -/
theorem view_eq_error {fault : Fault} (hview : v.view = .error fault) :
    fault = .malformedTag v.tagBits v.word ∨ fault = .malformedException v.word := by
  unfold view at hview
  split at hview
  next => cases hview
  next =>
    cases hkind : v.inlineKind? with
    | error other =>
        rw [hkind] at hview
        cases hview
        exact Or.inl (inlineKind?_eq_error hkind)
    | ok found =>
        rw [hkind] at hview
        simp only [bind, Except.bind, pure, Except.pure] at hview
        grind

/-- A word that is decoded as a reference is one. -/
theorem slot?_of_view_ref {slot : Nat} (hview : v.view = .ok (.ref slot)) :
    v.slot? = some slot := by
  unfold view at hview
  split at hview
  next other hslot =>
    cases hview
    exact hslot
  next =>
    -- no inline word decodes to a reference
    cases hkind : v.inlineKind? with
    | error fault => rw [hkind] at hview; cases hview
    | ok found =>
        rw [hkind] at hview
        simp only [bind, Except.bind, pure, Except.pure] at hview
        grind

end Value

/-- An excused fault is about a malformed word that the caller may pass. -/
theorem Excused.malformed {fault : Fault} (h : Excused admits fault) : ∃ v, admits v ∧
    (fault = .malformedTag v.tagBits v.word ∨ fault = .malformedException v.word) := by
  obtain ⟨v, hadmits, hview⟩ := h
  exact ⟨v, hadmits, Value.view_eq_error hview⟩

/-- A malformed word is no walk at all. -/
theorem Excused.ne_endless {fault : Fault} (h : Excused admits fault) : fault ≠ .endless := by
  obtain ⟨v, _, rfl | rfl⟩ := h.malformed <;> exact Fault.noConfusion

namespace Heap

variable {h : Heap} {v : Value}

/-- A usable value is decoded, unless the caller is to blame. -/
theorem Usable.looks_view (hv : h.Usable admits v) :
    Looks admits v.view fun view => v.view = .ok view := by
  cases hview : v.view with
  | ok view => exact rfl
  | error fault =>
      rcases hv.2 with ⟨view, hok⟩ | hadmits
      · rw [hview] at hok
        cases hok
      · exact ⟨v, hadmits, hview⟩

/-- A usable reference is one to a block. -/
theorem Usable.block? (hv : h.Usable admits v) {slot : Nat} (hslot : v.slot? = some slot) :
    ∃ block, h.block? slot = some block := by
  have hcontains := hv.1
  rw [contains, hslot] at hcontains
  exact Option.isSome_iff_exists.mp hcontains

/-- A reference to a block is usable whatever the caller may pass. -/
theorem usable_of_slot? {slot : Nat} {block : Block} (hslot : v.slot? = some slot)
    (hblock : h.block? slot = some block) : h.Usable admits v := by
  refine ⟨?_, Or.inl ⟨.ref slot, ?_⟩⟩
  · rw [contains, hslot]
    simp only [hblock, Option.isSome_some]
  · rw [Value.view, hslot]

/-- Whether a value is usable depends on which blocks there are, if it is a reference. -/
theorem Usable.mono {h' : Heap} (hv : h.Usable admits v)
    (hkept : ∀ slot, v.slot? = some slot → (h'.block? slot).isSome = true) :
    h'.Usable admits v := by
  refine ⟨?_, hv.2⟩
  rw [contains]
  cases hslot : v.slot? with
  | none => rfl
  | some slot => exact hkept slot hslot

@[simp] theorem usable_nil : h.Usable admits Value.nil :=
  ⟨rfl, Or.inl ⟨.nil, by decide⟩⟩

theorem block_eq {slot : Nat} {block : Block} (hblock : h.block? slot = some block) :
    h.block slot = .ok block := by
  rw [Heap.block, hblock]

theorem body_eq {slot : Nat} {block : Block} (hblock : h.block? slot = some block) :
    h.body slot = .ok block.body := by
  rw [Heap.body, block_eq hblock]
  rfl

/-- The kind of a reference is the kind of its block. -/
theorem kindOf_looks (hv : h.Usable admits v) :
    Looks admits (h.kindOf v) fun kind => ∀ slot, v.slot? = some slot →
      ∃ block, h.block? slot = some block ∧ block.header.kind = kind := by
  rw [kindOf]
  cases hslot : v.slot? with
  | some slot =>
      obtain ⟨block, hblock⟩ := hv.block? hslot
      refine Looks.bind_eq (block_eq hblock) ?_
      rintro other ⟨⟩
      exact ⟨block, hblock, rfl⟩
  | none =>
      cases hkind : v.inlineKind? with
      | error fault =>
          have hview := hv.looks_view
          rw [Value.view_of_inlineKind?_error hslot hkind] at hview
          exact hview
      | ok found =>
          cases found with
          | none => exact absurd hkind (Value.inlineKind?_ne_none hslot)
          | some kind => exact fun _ hnone => nomatch hnone

/-- A word that is no reference is of an inline kind. -/
theorem isInline_of_kindOf {kind : Kind} (hslot : v.slot? = none) (hkind : h.kindOf v = .ok kind) :
    kind.isInline = true := by
  have hfound : v.inlineKind? = .ok (some kind) := by
    simp only [kindOf, hslot] at hkind
    cases hinline : v.inlineKind? with
    | error fault => simp [hinline, bind, Except.bind] at hkind
    | ok found => cases found <;> simp_all [bind, Except.bind, pure, Except.pure]
  unfold Value.inlineKind? at hfound
  grind

/-- An expected block is there and of a kind that was asked for. -/
theorem expectSlot_gives (hv : h.Usable admits v) (expected : String) (accept : Kind → Bool) :
    Gives admits (h.expectSlot v expected accept) fun slot => v.slot? = some slot ∧
      ∃ block, h.block? slot = some block ∧ accept block.header.kind = true := by
  rw [expectSlot]
  refine Gives.look (kindOf_looks hv) fun kind hkind => ?_
  cases hslot : v.slot? with
  | none => exact Gives.refuse ..
  | some slot =>
      obtain ⟨block, hblock, rfl⟩ := hkind slot hslot
      dsimp only
      split
      next haccept => exact Gives.ok ⟨rfl, block, hblock, haccept⟩
      next => exact Gives.refuse ..

theorem expectBlock_gives (hv : h.Usable admits v) (expected : String) (accept : Kind → Bool) :
    Gives admits (h.expectBlock v expected accept) fun (slot, block) => v.slot? = some slot ∧
      h.block? slot = some block ∧ accept block.header.kind = true := by
  rw [expectBlock]
  refine Gives.bind (expectSlot_gives hv expected accept) fun slot hslot => ?_
  obtain ⟨hslot, block, hblock, haccept⟩ := hslot
  refine Gives.look_eq (block_eq hblock) ?_
  exact Gives.ok ⟨hslot, hblock, haccept⟩

/-- A size that passes the check is no larger than the heap. -/
theorem checkSize_gives (h : Heap) (size : Option Nat) :
    Gives admits (h.checkSize size) fun n => size = some n ∧ n ≤ h.settings.heapSize := by
  cases size with
  | none => exact Gives.refuse ..
  | some n =>
      rw [checkSize]
      split
      next hle => exact Gives.ok ⟨rfl, hle⟩
      next => exact Gives.refuse ..

/-- The numeric view of a value depends on its word and the payload it refers to. -/
theorem number?_looks (hv : h.Usable admits v) :
    Looks admits (h.number? v) fun _ => True := by
  rw [number?]
  refine Looks.bind hv.looks_view fun view hview => ?_
  cases view with
  | ref slot =>
      have hslot := Value.slot?_of_view_ref hview
      obtain ⟨block, hblock⟩ := hv.block? hslot
      refine Looks.bind_eq (body_eq hblock) ?_
      cases block.body <;> exact trivial
  | _ => exact trivial

end Heap

end ObjectHeap
