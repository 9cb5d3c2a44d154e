import ObjectHeap.Iteration
import ObjectHeap.Proofs.Progressions
import ObjectHeap.Proofs.Tables

/-! # Iteration

The next item of an iterator can be used, and the iterator moves past it. An item that has to be
made may cost a collection, which keeps the iterator and so what it iterates over.
-/

namespace ObjectHeap

theorem Body.exists_range {body : Body} (hfits : body.fits .range = true) :
    ∃ r, body = .range r := by
  cases body <;> first | exact absurd hfits Bool.false_ne_true | exact ⟨_, rfl⟩

namespace Heap

variable [Digest] {admits : Value → Prop} {h h' : Heap} {roots starts : List Value} {v : Value}

/-! ## Making an item -/

/-- Whether the items of a value are made when they are asked for. -/
def MakesItems (h : Heap) (iterable : Value) : Prop :=
  ∃ slot b, iterable.slot? = some slot ∧ h.block? slot = some b ∧
    (b.header.kind = .string ∨ b.header.kind = .range)

/-- What asking for an item leaves: one that can be used, and that is new if items are made. -/
structure Supplied (admits : Value → Prop) (h : Heap) (starts : List Value) (iterable : Value)
    (item : Option Value) (h' : Heap) : Prop where
  completed : h.Completed admits starts .nothing item.toList h'
  fresh : h.MakesItems iterable → ∀ w ∈ item, h.Fresh starts h' w

/-- An item that is there leaves everything as it is. -/
theorem Supplied.self (hs : h.Sound admits 0) {iterable : Value} {item : Option Value}
    (hitem : ∀ w ∈ item, h.Usable admits w) (hmakes : h.MakesItems iterable → item = none) :
    h.Supplied admits starts iterable item h := by
  refine ⟨(Retains.refl hs .nothing).completed (fun w hw => ?_) id, fun hmake w hw => ?_⟩
  · exact hitem w (Option.mem_toList.mp hw)
  · rw [hmakes hmake] at hw
    cases hw

/-- An item made for an iterator, with the iterator kept alive meanwhile. -/
theorem makeItem_yields {iterator iterable : Value} {make : HeapM Value}
    (hmake : Ends admits make (h.protectAll [iterator]) (roots ++ []) .fresh fun v => [v])
    (position : Nat) :
    Yields admits (do
      let item ← protecting [iterator] make
      return some (item, position)) h
      (fun found => h.Supplied admits (roots ++ [iterator]) iterable (found.map (·.1)))
      (h.Declined admits (roots ++ [iterator])) := by
  rw [List.append_nil] at hmake
  refine Yields.bind (yields_protecting hmake (fun v h' hdone => hdone.unprotect rfl)
    fun _ _ hd => hd.unprotect) fun v h' hdone => ?_
  refine Yields.pure ⟨hdone.of_quiet (Or.inr rfl) .nothing id, fun _ w hw => ?_⟩
  exact hdone.results_fresh trivial w (Option.mem_toList.mpr hw)

/-! ## The next item -/

theorem bytes_gives (hs : h.Sound admits 0) (hv : h.Usable admits v) :
    Gives admits (h.bytes v) fun data => ∃ slot b seq, v.slot? = some slot ∧
      h.block? slot = some b ∧ b.body = .bytes seq ∧ data = seq.toArray := by
  refine Gives.bind (expectBlock_gives hv ..) fun (slot, b) hblock => ?_
  obtain ⟨hslot, hb, hshape⟩ := hblock
  obtain ⟨seq, hbody⟩ := Body.exists_bytes (hs.coherent.fits slot b hb) (beq_iff_eq.mp hshape)
  dsimp only
  rw [hbody]
  exact Gives.ok ⟨slot, b, seq, hslot, hb, hbody, rfl⟩

/-- A text is read from the bytes of a string. -/
theorem text_gives (hs : h.Sound admits 0) (hv : h.Usable admits v) :
    Gives admits (h.text v) fun text => ∃ slot b seq, v.slot? = some slot ∧
      h.block? slot = some b ∧ b.header.kind = .string ∧ b.body = .bytes seq ∧
      String.fromUTF8? ⟨seq.toArray⟩ = some text := by
  refine Gives.bind (expectSlot_gives hv ..) fun slot hfound => ?_
  obtain ⟨hslot, b, hb, hkind⟩ := hfound
  refine Gives.bind (bytes_gives hs hv) fun data hdata => ?_
  obtain ⟨_, _, seq, hslot', hb', hbody, rfl⟩ := hdata
  cases hslot.symm.trans hslot'
  cases hb.symm.trans hb'
  split
  next text htext => exact Gives.ok ⟨slot, b, seq, hslot, hb, beq_iff_eq.mp hkind, hbody, htext⟩
  next => exact Gives.refuse ..

theorem len_gives (hs : h.Sound admits 0) (hv : h.Usable admits v) :
    Gives admits (h.len v) fun _ => True := by
  refine Gives.look (kindOf_looks hv) fun kind _ => ?_
  cases hslot : v.slot? with
  | none => exact Gives.refuse ..
  | some slot =>
      obtain ⟨b, hb⟩ := hv.block? hslot
      have hvalid := hs.coherent.valid slot b hb
      refine Gives.look_eq (body_eq hb) ?_
      cases hbody : b.body with
      | range r =>
          rw [hbody] at hvalid
          obtain ⟨n, hn⟩ := r.exists_len hvalid
          exact Gives.of_looks (Looks.of_eq hn trivial)
      | _ => exact trivial

theorem itemAt_yields (hs : h.Sound admits 0) (hroots : ∀ w ∈ roots, h.Usable admits w)
    {iterator iterable : Value} (hiterator : h.Usable admits iterator)
    (hiterable : h.Usable admits iterable) (position : Nat) :
    Yields admits (itemAt roots iterator iterable position) h
      (fun found => h.Supplied admits (roots ++ [iterator]) iterable (found.map (·.1)))
      (h.Declined admits (roots ++ [iterator])) := by
  have hp : (h.protectAll [iterator]).Sound admits 0 := hs.protectAll (by simpa using hiterator)
  have hd := Declined.refl hs (roots ++ [iterator])
  have hnone : h.Supplied admits (roots ++ [iterator]) iterable none h :=
    Supplied.self hs (by simp) fun _ => rfl
  refine Yields.get (Yields.look (kindOf_looks hiterable) fun kind hkind => ?_)
  cases hslot : iterable.slot? with
  | none => exact Yields.throw (hd _)
  | some slot =>
      obtain ⟨b, hb, rfl⟩ := hkind slot hslot
      have hfits := hs.coherent.fits slot b hb
      dsimp only
      split
      next =>
        -- characters of a text and numbers of a range are made on the way
        refine Yields.read (text_gives hs hiterable) hd fun text _ => ?_
        split
        next => exact Yields.pure hnone
        next c _ => exact makeItem_yields (newBytesOf_ends hp hroots rfl _) _
      next hstring =>
      split
      next hrange =>
        obtain ⟨r, hbody⟩ := Body.exists_range (hrange ▸ hfits)
        have hvalid := hs.coherent.valid slot b hb
        rw [hbody] at hvalid
        obtain ⟨n, hn⟩ := r.exists_len hvalid
        refine Yields.look_eq (body_eq hb) ?_
        rw [hbody]
        refine Yields.look_eq (r.nth?_eq hvalid hn position) ?_
        split
        next => exact Yields.pure hnone
        next member _ => exact makeItem_yields (newInt_ends hp hroots member) _
      next hrange =>
      have hthere : ¬ h.MakesItems iterable := by
        rintro ⟨found, b', hfound, hb', hkind⟩
        cases hslot.symm.trans hfound
        cases hb.symm.trans hb'
        exact hkind.elim hstring hrange
      split
      next =>
        -- items of a sequence and keys of a table are there already
        refine Yields.read (len_gives hs hiterable) hd fun n _ => ?_
        split
        next => exact Yields.pure hnone
        next =>
          refine Yields.read (seqGet_gives hs.coherent hiterable position) hd fun item hitem => ?_
          refine Yields.pure (Supplied.self hs ?_ fun hmakes => absurd hmakes hthere)
          rintro w ⟨⟩
          exact hitem
      next =>
      split
      next hhash =>
        obtain ⟨t, hbody⟩ := Body.exists_table hfits hhash
        refine Yields.look_eq (table_eq hb hbody) (Yields.pure (Supplied.self hs (fun w hw => ?_)
          fun hmakes => absurd hmakes hthere))
        simp only [Option.map_map, Option.mem_def, Option.map_eq_some_iff] at hw
        obtain ⟨⟨index, key, value⟩, hnext, rfl⟩ := hw
        obtain ⟨hash, hmem⟩ := ProbeTable.nextOccupied?_mem hnext
        exact (hs.coherent.stored_key hb hbody hmem).2
      next => exact Yields.throw (hd _)

/-- Whether the items of an iterator are made when they are asked for. -/
def MakesNext (h : Heap) (iterator : Value) : Prop :=
  ∃ slot b state, iterator.slot? = some slot ∧ h.block? slot = some b ∧
    b.body = .iterator state ∧ h.MakesItems state.iterable

theorem iterNext_yields (hs : h.Sound admits 0) (hroots : ∀ w ∈ roots, h.Usable admits w)
    {iterator : Value} (hiterator : h.Usable admits iterator) :
    Yields admits (iterNext roots iterator) h
      (fun item h' => h.Completed admits (roots ++ [iterator]) (.block iterator) item.toList h' ∧
        (h.MakesNext iterator → ∀ w ∈ item, h.Fresh (roots ++ [iterator]) h' w))
      (h.Declined admits (roots ++ [iterator])) := by
  refine Yields.get (Yields.read (expectBlock_gives hiterator ..) (Declined.refl hs _)
    fun (slot, b) hfound => ?_)
  obtain ⟨hslot, hb, hkind⟩ := hfound
  have hkind : b.header.kind = .iterator := beq_iff_eq.mp hkind
  have hfits := hs.coherent.fits slot b hb
  have hedges := hs.coherent.edges_usable slot b hb
  dsimp only
  cases hbody : b.body with
  | iterator state =>
      rw [hbody] at hedges
      have hmakes (hnext : h.MakesNext iterator) : h.MakesItems state.iterable := by
        obtain ⟨found, b', state', hfound, hb', hbody', hmakes⟩ := hnext
        cases hslot.symm.trans hfound
        cases hb.symm.trans hb'
        cases hbody.symm.trans hbody'
        exact hmakes
      refine Yields.bind (itemAt_yields hs hroots hiterator
        (hedges state.iterable (List.mem_singleton.mpr rfl)) state.position)
        fun found h' hmade => ?_
      have hdone := hmade.completed.of_quiet (Or.inl rfl) (.block iterator) id
      have hfresh := fun hnext => hmade.fresh (hmakes hnext)
      cases found with
      | none => exact Yields.pure ⟨hdone, hfresh⟩
      | some next =>
          have hb' := hmade.completed.carries.kept hb
            (Or.inr (.start (List.mem_append_right _ (List.mem_singleton.mpr rfl)) hslot))
            (Option.some_ne_none slot).symm
          have hadj : b.body.Adjusts (.iterator { state with position := next.2 }) [] := by
            rw [hbody]
            exact ⟨fun _ => rfl, trivial, rfl, fun w hw => Or.inl hw, by simp⟩
          have hr : h'.Retains admits (.block iterator)
              (h'.setBody slot (.iterator { state with position := next.2 })) :=
            hdone.sound.adjust hb' (by rw [hkind]; rfl) hadj (by simp) fun halike =>
              Target.allows_block hslot halike hadj.table_iff (by rw [hbody]; rfl)
          refine Yields.bind (Q := fun _ h'' => h'.Retains admits (.block iterator) h'')
            (Yields.modify hr) fun _ h'' hr' => Yields.pure ⟨hdone.retains hr' rfl, ?_⟩
          exact fun hnext w hw => (hfresh hnext w hw).of_le hdone.carries.collections_le
            (Nat.le_of_eq hr'.collections_eq.symm)
  | _ =>
      rw [hbody, hkind] at hfits
      exact absurd hfits Bool.false_ne_true

end Heap

end ObjectHeap
