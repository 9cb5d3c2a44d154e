import Mathlib.Data.Finset.Card
import Mathlib.Order.WellFounded
import Mathlib.Tactic.Common
import ObjectHeap.Heap.Basic

/-! # Held blocks

A block is *held* if it can be reached, along the edges of blocks, from a list of
values, from a register, or from a pinned block. Held blocks are what a collection has
to keep. The lemmas here say what holding depends on, how reading a slot follows the
changes that operations make to the slots, and that chains of references which end can
be ranked.
-/

namespace ObjectHeap

/-- The handle of a slot names that slot, as long as 32 bits can count it. -/
theorem Value.slot?_ofSlot {slot : Nat} (h : slot < span32) :
    (Value.ofSlot slot).slot? = some slot := by
  unfold span32 at h
  have hword : (Value.ofSlot slot).word.toNat = slot * 2 := by
    simp [Value.ofSlot, UInt64.toNat_mul]
    omega
  have heven : ((Value.ofSlot slot).word % 2 == 1) = false := by
    rw [beq_eq_false_iff_ne]
    intro heq
    have := congrArg UInt64.toNat heq
    simp [UInt64.toNat_mod, hword] at this
  unfold Value.slot? Value.isInline
  rw [heven]
  simp [UInt64.toNat_mod, UInt64.toNat_div, hword]
  omega

/-- If a relation leads on from a value by its slot alone, then values have a rank that falls along
it wherever its chains end, and none is above the number of slots. A value is ranked by how many
slots can be reached from it. -/
theorem exists_slot_rank {edge : Value → Value → Prop} {size : Nat}
    (hplace : ∀ v w, edge v w → ∃ slot < size, v.slot? = some slot)
    (hslot : ∀ v v' w, edge v w → v'.slot? = v.slot? → edge v' w) :
    ∃ rank : Value → Nat, (∀ v w, edge v w → Acc (fun w v => edge v w) v → rank w < rank v) ∧
      ∀ v, rank v ≤ size := by
  classical
  let reached (v : Value) : Finset Nat := (Finset.range size).filter fun slot =>
    ∃ w, Relation.ReflTransGen edge v w ∧ w.slot? = some slot
  refine ⟨fun v => (reached v).card, fun v w hedge hacc => ?_, fun v => ?_⟩
  · refine Finset.card_lt_card ⟨fun slot hreached => ?_, fun hsub => ?_⟩
    · rw [Finset.mem_filter] at hreached ⊢
      obtain ⟨hlt, u, hu, huslot⟩ := hreached
      exact ⟨hlt, u, .head hedge hu, huslot⟩
    · -- the slot of the value itself is not reached from the next one
      obtain ⟨slot, hlt, hvslot⟩ := hplace v w hedge
      have hself : slot ∈ reached v :=
        Finset.mem_filter.mpr ⟨Finset.mem_range.mpr hlt, v, .refl, hvslot⟩
      obtain ⟨_, u, hu, huslot⟩ := Finset.mem_filter.mp (hsub hself)
      have hloop : Relation.TransGen edge w w :=
        .tail' hu (hslot v u w hedge (huslot.trans hvslot.symm))
      have hback : Relation.TransGen (fun w v => edge v w) w w :=
        Relation.transGen_swap.mp hloop
      exact not_acc_iff_exists_descending_chain.mpr ⟨fun _ => w, rfl, fun _ => hback⟩
        (hacc.inv hedge).transGen
  · exact (Finset.card_filter_le _ _).trans_eq (Finset.card_range _)

namespace Heap

/-- The slots that can be reached from some values, from the registers and from the pinned
blocks. -/
inductive Held (h : Heap) (starts : List Value) : Nat → Prop where
  | start {v : Value} {slot : Nat} : v ∈ starts → v.slot? = some slot → Held h starts slot
  | register {v : Value} {slot : Nat} : v ∈ h.registers → v.slot? = some slot →
      Held h starts slot
  | pinned {slot : Nat} {block : Block} : h.block? slot = some block →
      block.header.pinned = true → Held h starts slot
  | edge {slot next : Nat} {block : Block} {v : Value} : Held h starts slot →
      h.block? slot = some block → v ∈ block.body.edges → v.slot? = some next →
      Held h starts next

theorem block?_eq_some_iff {h : Heap} {slot : Nat} {block : Block} :
    h.block? slot = some block ↔ h.slots[slot]? = some (some block) := by
  unfold block?
  rcases h.slots[slot]? with _ | _ | found <;> simp

theorem lt_size_of_block? {h : Heap} {slot : Nat} {block : Block}
    (hblock : h.block? slot = some block) : slot < h.slots.size :=
  (Array.getElem?_eq_some_iff.mp (block?_eq_some_iff.mp hblock)).1

theorem block?_eq_none_of_size_le {h : Heap} {slot : Nat} (hle : h.slots.size ≤ slot) :
    h.block? slot = none := by
  simp [block?, hle]

/-- What a heap holds from some values is held by any other heap that has the blocks held, from
values that include these and the registers. -/
theorem Held.transfer {h h' : Heap} {starts starts' : List Value} {slot : Nat}
    (hheld : h.Held starts slot)
    (hstarts : ∀ v ∈ starts, ∀ s, v.slot? = some s → h'.Held starts' s)
    (hregisters : ∀ v ∈ h.registers, ∀ s, v.slot? = some s → h'.Held starts' s)
    (hblocks : ∀ s block, h.Held starts s → h.block? s = some block →
      ∃ block', h'.block? s = some block' ∧ block'.header.pinned = block.header.pinned ∧
        ∀ v ∈ block.body.edges, v ∈ block'.body.edges) :
    h'.Held starts' slot := by
  induction hheld with
  | start hv hslot => exact hstarts _ hv _ hslot
  | register hv hslot => exact hregisters _ hv _ hslot
  | pinned hblock hpinned =>
      obtain ⟨block', hblock', hsame, _⟩ := hblocks _ _ (.pinned hblock hpinned) hblock
      exact .pinned hblock' (hsame.trans hpinned)
  | edge hprior hblock hv hslot ih =>
      obtain ⟨block', hblock', _, hedges⟩ := hblocks _ _ hprior hblock
      exact .edge ih hblock' (hedges _ hv) hslot

/-- Whether a value is inline or refers to a held block. -/
def Holds (h : Heap) (starts : List Value) (v : Value) : Prop :=
  ∀ slot, v.slot? = some slot → h.Held starts slot

theorem holds_of_mem {h : Heap} {starts : List Value} {v : Value} (hv : v ∈ starts) :
    h.Holds starts v :=
  fun _ hslot => .start hv hslot

/-- Starts that are held hold no more than what holds them. -/
theorem Held.mono {h : Heap} {starts starts' : List Value} {slot : Nat}
    (hheld : h.Held starts slot) (hstarts : ∀ v ∈ starts, h.Holds starts' v) :
    h.Held starts' slot :=
  hheld.transfer hstarts (fun _ hv _ hslot => .register hv hslot)
    (fun _ block _ hblock => ⟨block, hblock, rfl, fun _ hv => hv⟩)

theorem held_congr {h : Heap} {starts starts' : List Value} (hle : ∀ v ∈ starts, h.Holds starts' v)
    (hge : ∀ v ∈ starts', h.Holds starts v) (slot : Nat) :
    h.Held starts slot ↔ h.Held starts' slot :=
  ⟨fun hheld => hheld.mono hle, fun hheld => hheld.mono hge⟩

/-- Whether the block in a slot outlives a step from one heap to another: no collection has run,
or it is held. -/
def Survives (h : Heap) (starts : List Value) (h' : Heap) (slot : Nat) : Prop :=
  h'.collections = h.collections ∨ h.Held starts slot

/-- What a surviving block refers to survives. -/
theorem Survives.edge {h h' : Heap} {starts : List Value} {slot next : Nat} {block : Block}
    {v : Value} (hsurvives : h.Survives starts h' slot) (hblock : h.block? slot = some block)
    (hv : v ∈ block.body.edges) (hnext : v.slot? = some next) : h.Survives starts h' next :=
  hsurvives.imp_right fun hheld => hheld.edge hblock hv hnext

theorem survives_congr {h h' : Heap} {starts starts' : List Value}
    (hheld : ∀ slot, h.Held starts slot ↔ h.Held starts' slot) (slot : Nat) :
    h.Survives starts h' slot ↔ h.Survives starts' h' slot :=
  or_congr_right (hheld slot)

end Heap

end ObjectHeap
