import ObjectHeap.Proofs.Runs

/-! # The footprint of operations

An operation that succeeds may have collected, freed slots, used them again and moved the bytes of
the block that it changes. None of this shows: all that was held is as it was but for that one
block, what is new has a handle that nothing held had, and the registers are back to what they
were.
-/

namespace ObjectHeap

open Heap

/-- The values that an operation makes when it succeeds: what a constructor answers with, the dict
that comes with a new instance or module, and the items that an iterator makes. -/
inductive Operation.Made (h : Heap) (result : Option Value) (h' : Heap) : Operation → Value → Prop
  | result {op : Operation} {v : Value} : (op.target h result).Makes → v ∈ result →
      Made h result h' op v
  | dict {op : Operation} {v dict : Value} : op.leavesDict = true → v ∈ result →
      h'.attributeDict v = .ok dict → Made h result h' op dict
  | item {iterator v : Value} : h.MakesNext iterator → v ∈ result →
      Made h result h' (.iterNext iterator) v

namespace Heap

variable {admits : Value → Prop} {h h' : Heap} {roots starts : List Value} {op : Operation}
  {result : Option Value} {v dict : Value}

/-! ## What is new -/

/-- The dict that comes with a new instance or module is new. -/
theorem perform_outfits [Digest] (hs : h.Sound admits 0)
    (hargs : ∀ v ∈ roots ++ op.arguments, h.Usable admits v) (hleaves : op.leavesDict = true) :
    Yields admits (op.perform roots) h
      (fun result h' => ∀ v ∈ result, h.Outfitted (roots ++ op.arguments) v h')
      fun _ _ => True := by
  have hroots (v : Value) (hv : v ∈ roots) := hargs v (List.mem_append_left _ hv)
  cases op with
  | newInstance classRef =>
      have hclass := hargs classRef (by simp [Operation.arguments])
      refine Yields.map (Yields.mono (newInstance_yields hs hroots hclass) ?_ fun _ _ _ => trivial)
      rintro v h' ⟨_, hmade⟩ w ⟨⟩
      exact hmade
  | newModule name =>
      have hname := hargs name (by simp [Operation.arguments])
      refine Yields.map (Yields.mono (newModule_yields hs hroots hname) ?_ fun _ _ _ => trivial)
      rintro v h' ⟨_, hmade⟩ w ⟨⟩
      exact hmade
  | _ => cases hleaves

/-- What an operation makes is there, and new. -/
theorem fresh_of_made [Digest] (hs : h.Sound admits 0)
    (hargs : ∀ v ∈ roots ++ op.arguments, h.Usable admits v)
    (hok : op.perform roots h = .ok result h') (hmade : op.Made h result h' v) :
    h.Fresh (roots ++ op.arguments) h' v ∧ h'.contains v = true := by
  have hdone := (Operation.perform_yields hs op hargs).result hok
  have hroots (v : Value) (hv : v ∈ roots) := hargs v (List.mem_append_left _ hv)
  cases hmade with
  | result hmakes hv =>
      have hv := Option.mem_toList.mpr hv
      exact ⟨hdone.results_fresh hmakes v hv, (hdone.results_usable v hv).1⟩
  | dict hleaves hv hdict =>
      obtain ⟨made, hmade, hnew⟩ := (perform_outfits hs hargs hleaves).result hok _ hv
      cases hmade.symm.trans hdict
      exact hnew
  | item hmakes hv =>
      have hiterator := hargs _ (List.mem_append_right _ (List.mem_singleton.mpr rfl))
      have hnext := (iterNext_yields hs hroots hiterator).result hok
      exact ⟨hnext.2 hmakes v hv, (hdone.results_usable v (Option.mem_toList.mpr hv)).1⟩

/-! ## What stays -/

/-- Only the two operations on registers change these. -/
theorem keepsRegisters_target (hprotect : ∀ v, op ≠ .protect v)
    (hrelease : ∀ mark, op ≠ .releaseRegisters mark) :
    (op.target h result).keepsRegisters = true := by
  cases op with
  | protect v => exact absurd rfl (hprotect v)
  | releaseRegisters mark => exact absurd rfl (hrelease mark)
  | setAttr object name value =>
      simp only [Operation.target, attributeTarget]
      split <;> rfl
  | newFrozenSet items => cases result <;> rfl
  | _ => rfl

theorem Coherent.block?_of_held [Digest] (hc : h.Coherent admits)
    (hstarts : ∀ v ∈ starts, h.Usable admits v) {slot : Nat} (hheld : h.Held starts slot) :
    ∃ block, h.block? slot = some block := by
  cases hheld with
  | start hv hslot => exact (hstarts _ hv).block? hslot
  | register hv hslot => exact (hc.registers_usable _ hv).block? hslot
  | pinned hblock _ => exact ⟨_, hblock⟩
  | edge _ hblock hv hslot => exact (hc.edges_usable _ _ hblock _ hv).block? hslot

/-- All blocks that were held are as they were, but for the one that the operation changes, which
is still of its kind. The values that it makes have handles that no held block had, and none but
the two operations on registers changes these. -/
theorem Reachable.touches_target_only [Digest] (hr : h.Reachable admits)
    (hargs : ∀ v ∈ roots ++ op.arguments, h.Usable admits v)
    (hok : op.perform roots h = .ok result h') :
    (∀ slot block, h.block? slot = some block → h.Held (roots ++ op.arguments) slot →
      ((op.target h result).slot? ≠ some slot → h'.block? slot = some block) ∧
      ∃ block', h'.block? slot = some block' ∧ block'.header.kind = block.header.kind) ∧
    (∀ v slot, op.Made h result h' v → v.slot? = some slot →
      (h'.block? slot).isSome = true ∧ ∀ held, h.Held (roots ++ op.arguments) held → slot ≠ held) ∧
    ((∀ v, op ≠ .protect v) → (∀ mark, op ≠ .releaseRegisters mark) →
      h'.registers = h.registers) := by
  have hdone := (Operation.perform_yields hr.sound op hargs).result hok
  refine ⟨fun slot block hblock hheld => ?_, fun v slot hmade hslot => ?_,
    fun hprotect hrelease => hdone.carries.registers_eq (keepsRegisters_target hprotect hrelease)⟩
  · obtain ⟨block', hblock', hallows⟩ := hdone.carries.carried slot block hblock (Or.inr hheld)
    refine ⟨fun hother => hallows.eq hother ▸ hblock', block', hblock', ?_⟩
    exact (hallows.alike (hr.sound.coherent.fits slot block hblock)).kind_eq
  · obtain ⟨hfresh, hcontains⟩ := fresh_of_made hr.sound hargs hok hmade
    refine ⟨Option.isSome_iff_exists.mpr (contains_iff.mp hcontains slot hslot), ?_⟩
    rintro held hheld rfl
    obtain ⟨block, hblock⟩ := hr.sound.coherent.block?_of_held hargs hheld
    exact hfresh.not_held hslot hblock hheld

/-- There is room for the bytes once the integer is collected, and they get its slot. -/
theorem newBytes_cramped : ∃ h',
    (Operation.newBytes (Array.replicate 96 7)).perform [Value.ofSlot 0] cramped =
      .ok (some (Value.ofSlot 1)) h' := by
  refine ⟨_, by cbv⟩

theorem touches_target_only_cramped : ∃ h',
    (Operation.newBytes (Array.replicate 96 7)).perform [Value.ofSlot 0] cramped =
        .ok (some (Value.ofSlot 1)) h' ∧
      h'.block? 0 = cramped.block? 0 ∧ (h'.block? 1).isSome = true ∧
      ¬ cramped.Held [Value.ofSlot 0] 1 ∧ h'.registers = cramped.registers := by
  obtain ⟨h', hok⟩ := newBytes_cramped
  have hargs : ∀ v ∈ [Value.ofSlot 0] ++ (Operation.newBytes (Array.replicate 96 7)).arguments,
      cramped.Usable (fun _ => True) v := by
    intro v hv
    obtain rfl : v = Value.ofSlot 0 := by simpa [Operation.arguments] using hv
    exact usable_of_slot? rfl rfl
  obtain ⟨hkept, hnew, hregisters⟩ :=
    (reachable_cramped fun _ => True).touches_target_only hargs hok
  have hlist := (hkept 0 _ rfl (.start List.mem_cons_self rfl)).1 (Option.some_ne_none 0).symm
  obtain ⟨hthere, hother⟩ := hnew (Value.ofSlot 1) 1 (.result trivial rfl) rfl
  exact ⟨h', hok, hlist, hthere, fun hheld => hother 1 hheld rfl, hregisters (by simp) (by simp)⟩

end Heap

end ObjectHeap
