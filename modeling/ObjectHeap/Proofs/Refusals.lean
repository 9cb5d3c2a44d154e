import ObjectHeap.Proofs.TupleHashes

/-! # Reasons of refusals

Reading a value is refused if it is not of a kind that can be read so. The kind of a block has to be
the expected one, and an inline value never is of the kind of a block. A table is read by the
hash of a key, so that reading it is refused as well for a key that has no hash. Everything else
that keeps a value from being read is a fault.
-/

namespace ObjectHeap.Heap

variable {α β : Type} {r : Refusal}

/-! ## Steps in a row -/

theorem bind_refused_iff {x : Except Stop α} {f : α → Except Stop β} :
    x >>= f = .error (.refused r) ↔
      x = .error (.refused r) ∨ ∃ a, x = .ok a ∧ f a = .error (.refused r) := by
  cases x <;> simp [bind, Except.bind]

theorem liftM_bind_refused_iff {x : Except Fault α} {f : α → Except Stop β} :
    liftM x >>= f = .error (.refused r) ↔ ∃ a, x = .ok a ∧ f a = .error (.refused r) := by
  cases x with
  | error fault =>
      refine iff_of_false (fun heq => by cases heq) ?_
      rintro ⟨a, ha, _⟩
      cases ha
  | ok a => simp

theorem map_refused_iff {x : Except Stop α} {f : α → β} :
    f <$> x = .error (.refused r) ↔ x = .error (.refused r) := by
  cases x <;> simp [Functor.map, Except.map]

/-! ## Kinds -/

variable {h : Heap} {v : Value}

/-- A value of an accepted kind has a slot, unless inline kinds are accepted. -/
theorem exists_expectSlot {kind : Kind} (hkind : h.kindOf v = .ok kind) (expected : String)
    (accept : Kind → Bool) (haccept : accept kind = true) (hinline : kind.isInline = false) :
    ∃ slot, h.expectSlot v expected accept = .ok slot := by
  cases hslot : v.slot? with
  | none => exact absurd (isInline_of_kindOf hslot hkind) (by simp [hinline])
  | some slot =>
      refine ⟨slot, ?_⟩
      rw [expectSlot, hkind, liftM_ok_bind, hslot]
      exact if_pos haccept

/-- Where blocks of some kinds are expected, all values of other kinds are refused. -/
theorem expectSlot_refused_iff {expected : String} {accept : Kind → Bool}
    (haccept : ∀ kind, accept kind = true → kind.isInline = false) :
    h.expectSlot v expected accept = .error (.refused r) ↔
      ∃ kind, h.kindOf v = .ok kind ∧ accept kind = false ∧ r = .typeMismatch expected kind := by
  rw [expectSlot, liftM_bind_refused_iff]
  refine exists_congr fun kind => and_congr_right fun hkind => ?_
  cases haccepts : accept kind with
  | false => cases v.slot? <;> simp [refuse, eq_comm]
  | true =>
      obtain ⟨slot, hslot⟩ :=
        exists_expectSlot hkind expected accept haccepts (haccept kind haccepts)
      rw [expectSlot, hkind, liftM_ok_bind, haccepts] at hslot
      rw [hslot]
      simp

/-- A block is refused for its kind only. -/
theorem expectBlock_refused_iff {expected : String} {accept : Kind → Bool}
    (haccept : ∀ kind, accept kind = true → kind.isInline = false) :
    h.expectBlock v expected accept = .error (.refused r) ↔
      ∃ kind, h.kindOf v = .ok kind ∧ accept kind = false ∧ r = .typeMismatch expected kind := by
  rw [expectBlock, bind_refused_iff, expectSlot_refused_iff haccept]
  refine or_iff_left ?_
  rintro ⟨slot, _, hblock⟩
  obtain ⟨b, _, hpure⟩ := liftM_bind_refused_iff.mp hblock
  cases hpure

/-- A part of a record is refused for the kind of the value only. -/
theorem recordPart_refused_iff {kind : Kind} (hkind : kind.isInline = false)
    {part? : Body → Option α} :
    h.recordPart v kind part? = .error (.refused r) ↔
      ∃ found, h.kindOf v = .ok found ∧ found ≠ kind ∧ r = .typeMismatch kind.name found := by
  have haccept (found : Kind) (hfound : (found == kind) = true) : found.isInline = false := by
    rwa [beq_iff_eq.mp hfound]
  rw [recordPart, bind_refused_iff, record, bind_refused_iff, expectBlock_refused_iff haccept]
  simp only [beq_eq_false_iff_ne, ne_eq]
  rw [or_assoc]
  refine or_iff_left ?_
  rintro (⟨found, _, hpure⟩ | ⟨found, _, hpart⟩)
  · cases hpure
  · split at hpart <;> cases hpart

theorem objects_refused_iff :
    h.objects v = .error (.refused r) ↔ ∃ found, h.kindOf v = .ok found ∧
      found ≠ .list ∧ found ≠ .tuple ∧ r = .typeMismatch "list or tuple" found := by
  have haccept (kind : Kind) (hkind : (kind.shape == .objectSequence) = true) :
      kind.isInline = false := by
    cases kind <;> first | rfl | cases hkind
  have hshape (kind : Kind) :
      (kind.shape == .objectSequence) = false ↔ kind ≠ .list ∧ kind ≠ .tuple := by
    cases kind <;> decide
  rw [objects, bind_refused_iff, expectBlock_refused_iff haccept]
  simp only [hshape, and_assoc]
  refine or_iff_left ?_
  rintro ⟨found, _, hbody⟩
  split at hbody <;> cases hbody

/-! ## Keys -/

variable [Digest] {key : Value}

theorem exists_unhashable_of_blockHash {hashPart : Value → Except Stop UInt64} {block : Block}
    (hpart : ∀ item, hashPart item = .error (.refused r) → ∃ kind, r = .unhashable kind)
    (hrefused : blockHash hashPart key block = .error (.refused r)) :
    ∃ kind, r = .unhashable kind := by
  rw [blockHash] at hrefused
  split at hrefused
  next =>
    split at hrefused
    next => cases hrefused
    next => cases hrefused
    next =>
      obtain ⟨_, item, _, hitem, _⟩ := (foldlM_eq_error_iff _).mp hrefused
      exact hpart item hitem
    next => cases hrefused
    next => cases hrefused
  next =>
    cases hrefused
    exact ⟨_, rfl⟩

/-- A hash is refused only for something in the key that has none. -/
theorem exists_unhashable_of_hashWithin {depth : Nat}
    (hrefused : h.hashWithin depth key = .error (.refused r)) : ∃ kind, r = .unhashable kind := by
  induction depth generalizing key with
  | zero => cases hrefused
  | succ depth ih =>
      rw [hashWithin_succ] at hrefused
      split at hrefused
      next => cases hrefused
      next => cases hrefused
      next =>
        split at hrefused
        next => cases hrefused
        next =>
          split at hrefused
          next => cases hrefused
          next => exact exists_unhashable_of_blockHash (fun _ => ih) hrefused

/-- A lookup is refused if its key cannot be hashed. -/
theorem hashLookup_refused_iff {slot : Nat} :
    h.hashLookup slot key = .error (.refused r) ↔ h.hashOf key = .error (.refused r) := by
  rw [hashLookup, bind_refused_iff]
  refine or_iff_left ?_
  rintro ⟨hash, _, hrest⟩
  obtain ⟨probe, _, hrest⟩ := liftM_bind_refused_iff.mp hrest
  split at hrest
  next =>
    obtain ⟨table, _, hrest⟩ := liftM_bind_refused_iff.mp hrest
    obtain ⟨entry, _, hrest⟩ := liftM_bind_refused_iff.mp hrest
    split at hrest <;> cases hrest
  next => cases hrest

/-- A dictionary is refused for its kind first, and for its key then. -/
theorem dictGet_refused_iff {dict : Value} :
    h.dictGet dict key = .error (.refused r) ↔
      (∃ kind, h.kindOf dict = .ok kind ∧ kind ≠ .dict ∧ r = .typeMismatch "dict" kind) ∨
        h.kindOf dict = .ok .dict ∧ h.hashOf key = .error (.refused r) := by
  have haccept (kind : Kind) (hkind : (kind == .dict) = true) : kind.isInline = false := by
    rw [beq_iff_eq.mp hkind]
    rfl
  rw [dictGet, bind_refused_iff, dictSlot, expectSlot_refused_iff haccept]
  simp only [beq_eq_false_iff_ne]
  refine or_congr_right ⟨?_, ?_⟩
  · rintro ⟨slot, hslot, hlookup⟩
    obtain ⟨hdict, b, hb, hkind⟩ := expectSlot_eq_ok hslot
    rw [kindOf_eq hdict hb, beq_iff_eq.mp hkind]
    exact ⟨rfl, hashLookup_refused_iff.mp (map_refused_iff.mp hlookup)⟩
  · rintro ⟨hkind, hhash⟩
    obtain ⟨slot, hslot⟩ := exists_expectSlot hkind "dict" (· == .dict) rfl rfl
    exact ⟨slot, hslot, map_refused_iff.mpr (hashLookup_refused_iff.mpr hhash)⟩

end ObjectHeap.Heap
