import Mathlib.Tactic.Common
import ObjectHeap.Heap.Mark

/-! # Marking

The three colors of marking. A block that is not white is *reached*. Between two steps
the edges of every black block lead to reached blocks, and every grey block is on the
stack, or the stack has overflowed, or a pass over the slots is still to come to it.
When the stack is drained and no overflow is left there are no grey blocks, and so the
black ones are closed under edges.

The statements are about a table `base` of white blocks, which marking only recolors,
and about a set `held` of slots that is closed under edges: nothing outside of it is
ever reached. Marking can fail in one way only, at a held slot without a block.
-/

namespace ObjectHeap

def Occupied (slots : Array (Option Block)) (slot : Nat) : Prop :=
  ∃ block, slots[slot]? = some (some block)

/-- Whether a set of slots contains what its blocks refer to. -/
def EdgeClosed (slots : Array (Option Block)) (among : Nat → Prop) : Prop :=
  ∀ slot block, among slot → slots[slot]? = some (some block) →
    ∀ v ∈ block.body.edges, ∀ next, v.slot? = some next → among next

namespace Marker

/-- The content of a slot with its mark cleared. -/
def blanched (content : Option Block) : Option Block := content.map (painted · .white)

/-- Whether a slot holds a block that is not white. -/
def Reached (m : Marker) (slot : Nat) : Prop :=
  ∃ block, m.slots[slot]? = some (some block) ∧ block.header.color ≠ .white

@[simp] theorem painted_color (block : Block) (color : Color) :
    (painted block color).header.color = color := rfl

@[simp] theorem painted_body (block : Block) (color : Color) :
    (painted block color).body = block.body := rfl

theorem painted_eq_self {block : Block} {color : Color} (h : block.header.color = color) :
    painted block color = block := by
  subst h
  rfl

theorem color?_eq_some {slots : Array (Option Block)} {slot : Nat} {color : Color} :
    color? slots slot = some color ↔
      ∃ block, slots[slot]? = some (some block) ∧ block.header.color = color := by
  unfold color?
  rcases slots[slot]? with _ | _ | block <;> simp

theorem getElem?_setIfInBounds_of_some {slots : Array (Option Block)} {slot : Nat}
    {old : Option Block} (h : slots[slot]? = some old) (new : Option Block) (i : Nat) :
    (slots.setIfInBounds slot new)[i]? = if i = slot then some new else slots[i]? := by
  have hlt := (Array.getElem?_eq_some_iff.mp h).1
  by_cases heq : i = slot
  · subst heq
    simp [hlt]
  · simp [heq, Ne.symm heq]

/-- Changing a color only is not seen once marks are cleared. -/
theorem map_blanched_setIfInBounds {slots : Array (Option Block)} {slot : Nat} {block : Block}
    (h : slots[slot]? = some (some block)) (color : Color) :
    (slots.setIfInBounds slot (some (painted block color))).map blanched =
      slots.map blanched := by
  apply Array.ext_getElem?
  intro i
  rw [Array.getElem?_map, Array.getElem?_map, getElem?_setIfInBounds_of_some h]
  split
  next heq => rw [heq, h]; rfl
  next => rfl

/-- Another color for a block changes the color of its slot only. -/
theorem color?_repaint {slots : Array (Option Block)} {slot : Nat} {block : Block}
    (h : slots[slot]? = some (some block)) (color : Color) (i : Nat) :
    color? (slots.setIfInBounds slot (some (painted block color))) i =
      if i = slot then some color else color? slots i := by
  unfold color?
  rw [getElem?_setIfInBounds_of_some h]
  split <;> rfl

/-- The number of blocks that are not white. -/
def reachedCount (slots : Array (Option Block)) : Nat :=
  slots.toList.countP fun content => content.any (·.header.color != .white)

/-- Darkening a block adds to the reached ones if it was white. -/
theorem reachedCount_repaint {slots : Array (Option Block)} {slot : Nat} {block : Block}
    {color : Color} (h : slots[slot]? = some (some block)) (hcolor : color ≠ .white) :
    reachedCount (slots.setIfInBounds slot (some (painted block color))) =
      reachedCount slots + if block.header.color = .white then 1 else 0 := by
  obtain ⟨hlt, hget⟩ := Array.getElem?_eq_some_iff.mp h
  have hget' : slots.toList[slot] = some block := by simpa using hget
  have hpos : block.header.color ≠ .white → 0 < reachedCount slots := fun hne =>
    List.countP_pos_iff.mpr ⟨some block, hget' ▸ List.getElem_mem _, by simpa using hne⟩
  unfold reachedCount at hpos ⊢
  rw [Array.toList_setIfInBounds, List.countP_set (by simpa using hlt), hget']
  by_cases hwhite : block.header.color = .white
  · simp [hwhite, hcolor]
  · have := hpos hwhite
    simp only [Option.any_some, painted_color, bne_iff_ne, ne_eq, hwhite, hcolor,
      not_false_eq_true, ↓reduceIte]
    omega

theorem reached_iff {m : Marker} {slot : Nat} :
    m.Reached slot ↔ ∃ color, color? m.slots slot = some color ∧ color ≠ .white := by
  constructor
  · rintro ⟨block, hblock, hcolor⟩
    exact ⟨_, color?_eq_some.mpr ⟨block, hblock, rfl⟩, hcolor⟩
  · rintro ⟨color, hcolor, hne⟩
    obtain ⟨block, hblock, rfl⟩ := color?_eq_some.mp hcolor
    exact ⟨block, hblock, hne⟩

theorem reached_repaint {m m' : Marker} {slot : Nat} {block : Block} {color : Color}
    (hblock : m.slots[slot]? = some (some block)) (hcolor : color ≠ .white)
    (hslots : m'.slots = m.slots.setIfInBounds slot (some (painted block color))) (i : Nat) :
    m'.Reached i ↔ m.Reached i ∨ i = slot := by
  rw [reached_iff, reached_iff, hslots, color?_repaint hblock]
  by_cases heq : i = slot
  · simp [heq, hcolor]
  · simp [heq]

/-- What marking comes to: a state of which `Q` holds, or a held slot without a block. -/
structure Marks (base : Array (Option Block)) (held : Nat → Prop) (x : Except Fault Marker)
    (Q : Marker → Prop) : Prop where
  ok : ∀ m, x = .ok m → Q m
  error : ∀ fault, x = .error fault →
    ∃ slot, fault = .danglingWhileMarking slot ∧ held slot ∧ ¬ Occupied base slot

section Tricolor

variable {base : Array (Option Block)} {held : Nat → Prop}

namespace Marks

variable {x : Except Fault Marker} {P Q : Marker → Prop}

theorem of_ok {m : Marker} (h : Q m) : Marks base held (.ok m) Q := by
  refine ⟨?_, fun fault hfault => by cases hfault⟩
  intro m' heq
  cases heq
  exact h

theorem dangling {slot : Nat} (hheld : held slot) (hbase : ¬ Occupied base slot) :
    Marks base held (.error (.danglingWhileMarking slot)) Q := by
  refine ⟨fun m heq => (by cases heq), ?_⟩
  intro fault hfault
  cases hfault
  exact ⟨slot, rfl, hheld, hbase⟩

theorem mono (hx : Marks base held x P) (h : ∀ m, x = .ok m → P m → Q m) :
    Marks base held x Q :=
  ⟨fun m heq => h m heq (hx.ok m heq), hx.error⟩

theorem bind {f : Marker → Except Fault Marker} (hx : Marks base held x P)
    (hf : ∀ m, x = .ok m → P m → Marks base held (f m) Q) : Marks base held (x >>= f) Q := by
  cases x with
  | error fault => exact ⟨fun m heq => (by cases heq), hx.error⟩
  | ok m => exact hf m rfl (hx.ok m rfl)

/-- Where every held slot has a block, marking does not fail. -/
theorem exists_ok (hx : Marks base held x Q) (hoccupied : ∀ slot, held slot → Occupied base slot) :
    ∃ m, x = .ok m ∧ Q m := by
  cases x with
  | error fault =>
      obtain ⟨slot, _, hheld, hbase⟩ := hx.error fault rfl
      exact absurd (hoccupied slot hheld) hbase
  | ok m => exact ⟨m, rfl, hx.ok m rfl⟩

end Marks

/-- The state of marking between two steps. The grey blocks that satisfy `pending` are those
that a pass over the slots is still to come to. -/
structure Tricolor (base : Array (Option Block)) (held pending : Nat → Prop) (m : Marker) :
    Prop where
  recolors : m.slots.map blanched = base
  stacked : ∀ slot ∈ m.stack, m.Reached slot
  greys : ∀ slot, color? m.slots slot = some .grey →
    slot ∈ m.stack ∨ m.overflowed = true ∨ pending slot
  sound : ∀ slot, m.Reached slot → held slot
  marked_eq : m.marked = reachedCount m.slots

/-- The edges of every black block lead to reached blocks. -/
def Shaded (m : Marker) : Prop :=
  ∀ (slot : Nat) (block : Block), m.slots[slot]? = some (some block) →
    block.header.color = .black →
    ∀ v ∈ block.body.edges, ∀ next, v.slot? = some next → m.Reached next

/-- Marks only darken: what was reached stays reached, and what was black stays black. -/
structure Darkens (m m' : Marker) : Prop where
  reached : ∀ slot, m.Reached slot → m'.Reached slot
  black : ∀ slot, color? m.slots slot = some .black → color? m'.slots slot = some .black

theorem Darkens.refl (m : Marker) : m.Darkens m := ⟨fun _ h => h, fun _ h => h⟩

theorem Darkens.trans {m m' m'' : Marker} (h : m.Darkens m') (h' : m'.Darkens m'') :
    m.Darkens m'' :=
  ⟨fun slot hs => h'.reached slot (h.reached slot hs),
    fun slot hs => h'.black slot (h.black slot hs)⟩

theorem Tricolor.base_getElem? {pending : Nat → Prop} {m : Marker}
    (h : m.Tricolor base held pending) {slot : Nat} {block : Block}
    (hblock : m.slots[slot]? = some (some block)) :
    base[slot]? = some (some (painted block .white)) := by
  rw [← h.recolors, Array.getElem?_map, hblock]
  rfl

theorem Tricolor.exists_getElem? {pending : Nat → Prop} {m : Marker}
    (h : m.Tricolor base held pending) {slot : Nat} (hbase : Occupied base slot) :
    ∃ block, m.slots[slot]? = some (some block) := by
  obtain ⟨block, hblock⟩ := hbase
  rw [← h.recolors, Array.getElem?_map] at hblock
  rcases hslot : m.slots[slot]? with _ | _ | found
  · simp [hslot] at hblock
  · simp [hslot, blanched] at hblock
  · exact ⟨found, rfl⟩

/-- Recoloring keeps the payload of a block. -/
theorem Tricolor.body_eq {pending pending' : Nat → Prop} {m m' : Marker}
    (h : m.Tricolor base held pending) (h' : m'.Tricolor base held pending') {slot : Nat}
    {block block' : Block} (hblock : m.slots[slot]? = some (some block))
    (hblock' : m'.slots[slot]? = some (some block')) : block.body = block'.body := by
  have heq := (h.base_getElem? hblock).symm.trans (h'.base_getElem? hblock')
  simp only [Option.some.injEq] at heq
  have hbody := congrArg Block.body heq
  exact hbody

/-- The blocks that a step of marking may turn from white to grey, and the rest of what
shading a list of values does. -/
structure Shades (m : Marker) (values : List Value) (m' : Marker) : Prop where
  darkens : m.Darkens m'
  black_eq : ∀ slot, color? m'.slots slot = some .black → color? m.slots slot = some .black
  reached : ∀ v ∈ values, ∀ slot, v.slot? = some slot → m'.Reached slot

theorem Shades.refl {m : Marker} {values : List Value}
    (h : ∀ v ∈ values, ∀ slot, v.slot? = some slot → m.Reached slot) : m.Shades values m :=
  ⟨Darkens.refl m, fun _ hb => hb, h⟩

/-- A white block that is held may turn grey, on the stack or past its limit. -/
theorem Tricolor.grey {pending : Nat → Prop} {m m' : Marker} {slot : Nat} {block : Block}
    (h : m.Tricolor base held pending) (hblock : m.slots[slot]? = some (some block))
    (hwhite : block.header.color = .white) (hheld : held slot)
    (hslots : m'.slots = m.slots.setIfInBounds slot (some (painted block .grey)))
    (hmarked : m'.marked = m.marked + 1)
    (hstack : m'.stack = m.stack.push slot ∧ m'.overflowed = m.overflowed ∨
      m'.stack = m.stack ∧ m'.overflowed = true) :
    m'.Tricolor base held pending := by
  have hreached := reached_repaint hblock (by decide) hslots
  refine ⟨?_, ?_, ?_, ?_, ?_⟩
  · rw [hslots, ← h.recolors]
    exact map_blanched_setIfInBounds hblock .grey
  · intro i hi
    rw [hreached]
    rcases hstack with ⟨hpush, _⟩ | ⟨hsame, _⟩
    · rw [hpush, Array.mem_push] at hi
      exact hi.imp_left (h.stacked i)
    · exact Or.inl (h.stacked i (hsame ▸ hi))
  · intro i hi
    rcases hstack with ⟨hpush, hover⟩ | ⟨_, hover⟩
    · rw [hpush, hover, Array.mem_push]
      by_cases heq : i = slot
      · exact Or.inl (Or.inr heq)
      · rw [hslots, color?_repaint hblock, if_neg heq] at hi
        exact (h.greys i hi).imp_left Or.inl
    · exact Or.inr (Or.inl hover)
  · intro i hi
    rcases (hreached i).mp hi with hold | rfl
    · exact h.sound i hold
    · exact hheld
  · rw [hslots, hmarked, h.marked_eq, reachedCount_repaint hblock (by decide), if_pos hwhite]

theorem shades_grey {m m' : Marker} {slot : Nat} {block : Block} {v : Value}
    (hblock : m.slots[slot]? = some (some block)) (hwhite : block.header.color = .white)
    (hslots : m'.slots = m.slots.setIfInBounds slot (some (painted block .grey)))
    (hslot : v.slot? = some slot) : m.Shades [v] m' := by
  have hreached := reached_repaint hblock (by decide) hslots
  have hcolor : color? m.slots slot = some .white := color?_eq_some.mpr ⟨block, hblock, hwhite⟩
  refine ⟨⟨fun i hi => (hreached i).mpr (Or.inl hi), ?_⟩, ?_, ?_⟩
  · intro i hi
    have hne : i ≠ slot := by
      rintro rfl
      rw [hcolor] at hi
      cases hi
    rw [hslots, color?_repaint hblock, if_neg hne]
    exact hi
  · intro i hi
    rw [hslots, color?_repaint hblock] at hi
    split at hi
    next => cases hi
    next => exact hi
  · intro w hw i hi
    rw [List.mem_singleton.mp hw, hslot] at hi
    cases hi
    exact (hreached slot).mpr (Or.inr rfl)

/-- Shading a value that is held reaches its block. -/
theorem shade_spec {pending : Nat → Prop} {m : Marker} {v : Value}
    (h : m.Tricolor base held pending) (hv : ∀ slot, v.slot? = some slot → held slot) :
    Marks base held (m.shade v) fun m' => m'.Tricolor base held pending ∧ m.Shades [v] m' := by
  cases hslot : v.slot? with
  | none =>
      rw [shade, hslot]
      refine Marks.of_ok ⟨h, Shades.refl ?_⟩
      intro w hw slot hws
      rw [List.mem_singleton.mp hw, hslot] at hws
      cases hws
  | some slot =>
      by_cases hbase : Occupied base slot
      · obtain ⟨block, hblock⟩ := h.exists_getElem? hbase
        simp only [shade, hslot, hblock]
        split
        next hwhite =>
          split
          next => exact Marks.of_ok ⟨h.grey hblock hwhite (hv slot hslot) rfl rfl
            (Or.inl ⟨rfl, rfl⟩), shades_grey hblock hwhite rfl hslot⟩
          next => exact Marks.of_ok ⟨h.grey hblock hwhite (hv slot hslot) rfl rfl
            (Or.inr ⟨rfl, rfl⟩), shades_grey hblock hwhite rfl hslot⟩
        next hcolor =>
          refine Marks.of_ok ⟨h, Shades.refl ?_⟩
          intro w hw i hi
          rw [List.mem_singleton.mp hw, hslot] at hi
          cases hi
          exact ⟨block, hblock, hcolor⟩
      · have hnone : ∀ block, m.slots[slot]? ≠ some (some block) := fun block hblock =>
          hbase ⟨_, h.base_getElem? hblock⟩
        have hshade : m.shade v = .error (.danglingWhileMarking slot) := by
          rcases hget : m.slots[slot]? with _ | _ | block
          · simp [shade, hslot, hget]
          · simp [shade, hslot, hget]
          · exact absurd hget (hnone block)
        rw [hshade]
        exact Marks.dangling (hv slot hslot) hbase

/-- Shading values that are held reaches the blocks of all of them. -/
theorem shadeAll_spec {pending : Nat → Prop} {m : Marker} {values : List Value}
    (h : m.Tricolor base held pending)
    (hvalues : ∀ v ∈ values, ∀ slot, v.slot? = some slot → held slot) :
    Marks base held (m.shadeAll values) fun m' =>
      m'.Tricolor base held pending ∧ m.Shades values m' := by
  induction values generalizing m with
  | nil => exact Marks.of_ok ⟨h, Shades.refl (by simp)⟩
  | cons v rest ih =>
      rw [shadeAll, List.foldlM_cons]
      apply (shade_spec h (hvalues v List.mem_cons_self)).bind
      rintro next - ⟨htri, hshade⟩
      apply (ih htri fun w hw => hvalues w (List.mem_cons_of_mem _ hw)).mono
      rintro m' - ⟨htri', hshade'⟩
      refine ⟨htri', hshade.darkens.trans hshade'.darkens, ?_, ?_⟩
      · exact fun slot hb => hshade.black_eq slot (hshade'.black_eq slot hb)
      · intro w hw slot hslot
        rcases List.mem_cons.mp hw with rfl | hw
        · exact hshade'.darkens.reached slot
            (hshade.reached w (List.mem_singleton_self w) slot hslot)
        · exact hshade'.reached w hw slot hslot

/-- Shading keeps the edges of black blocks shaded. -/
theorem Shades.shaded {pending pending' : Nat → Prop} {m m' : Marker} {values : List Value}
    (hs : m.Shades values m') (h : m.Tricolor base held pending)
    (h' : m'.Tricolor base held pending') (hshaded : m.Shaded) : m'.Shaded := by
  intro slot block hblock hcolor v hv next hnext
  have hblack := hs.black_eq slot (color?_eq_some.mpr ⟨block, hblock, hcolor⟩)
  obtain ⟨old, hold, holdColor⟩ := color?_eq_some.mp hblack
  have hbody := h.body_eq h' hold hblock
  exact hs.darkens.reached next (hshaded slot old hold holdColor v (hbody ▸ hv) next hnext)

/-- A pending block that is not grey need not be waited for. -/
theorem Tricolor.settle {pending : Nat → Prop} {m : Marker} {slot : Nat}
    (h : m.Tricolor base held fun s => pending s ∨ s = slot)
    (hslot : color? m.slots slot ≠ some .grey) : m.Tricolor base held pending := by
  refine ⟨h.recolors, h.stacked, fun i hi => ?_, h.sound, h.marked_eq⟩
  rcases h.greys i hi with hstack | hover | hpend | rfl
  · exact Or.inl hstack
  · exact Or.inr (Or.inl hover)
  · exact Or.inr (Or.inr hpend)
  · exact absurd hi hslot

/-- A reached block may turn black. -/
theorem Tricolor.blacken {pending : Nat → Prop} {m m' : Marker} {slot : Nat} {block : Block}
    (h : m.Tricolor base held pending) (hblock : m.slots[slot]? = some (some block))
    (hcolor : block.header.color ≠ .white)
    (hslots : m'.slots = m.slots.setIfInBounds slot (some (painted block .black)))
    (hstack : m'.stack = m.stack) (hover : m'.overflowed = m.overflowed)
    (hmarked : m'.marked = m.marked) : m'.Tricolor base held pending := by
  have hself (i : Nat) (heq : i = slot) : m.Reached i := heq ▸ ⟨block, hblock, hcolor⟩
  have hreached (i : Nat) : m'.Reached i ↔ m.Reached i :=
    (reached_repaint hblock (by decide) hslots i).trans (or_iff_left_of_imp (hself i))
  refine ⟨?_, fun i hi => (hreached i).mpr (h.stacked i (hstack ▸ hi)), ?_,
    fun i hi => h.sound i ((hreached i).mp hi), ?_⟩
  · rw [hslots, ← h.recolors]
    exact map_blanched_setIfInBounds hblock .black
  · intro i hi
    rw [hslots, color?_repaint hblock] at hi
    rw [hstack, hover]
    split at hi
    next => cases hi
    next => exact h.greys i hi
  · rw [hslots, hmarked, h.marked_eq, reachedCount_repaint hblock (by decide), if_neg hcolor,
      Nat.add_zero]

/-- Scanning a reached block makes it black and reaches what it refers to. The block itself
need not be on the stack any more. -/
theorem scan_spec {pending : Nat → Prop} {m : Marker} {slot : Nat} (hheld : EdgeClosed base held)
    (h : m.Tricolor base held fun s => pending s ∨ s = slot) (hshaded : m.Shaded)
    (hslot : m.Reached slot) :
    Marks base held (m.scan slot) fun m' => m'.Tricolor base held pending ∧ m'.Shaded ∧
      m.Darkens m' ∧ color? m'.slots slot = some .black := by
  obtain ⟨block, hblock, hcolor⟩ := hslot
  by_cases hblack : block.header.color = .black
  · have hself : color? m.slots slot = some .black :=
      color?_eq_some.mpr ⟨block, hblock, hblack⟩
    simp only [scan, hblock, hblack, ↓reduceIte]
    exact Marks.of_ok ⟨h.settle (by simp [hself]), hshaded, Darkens.refl m, hself⟩
  · -- the block turns black before its edges are shaded, so it may refer to itself
    let opened : Marker :=
      { m with slots := m.slots.setIfInBounds slot (some (painted block .black)) }
    have hscan : m.scan slot = opened.shadeAll block.body.edges := by
      simp [scan, hblock, hblack, opened]
    have hrepaint : ∀ i,
        color? opened.slots i = if i = slot then some .black else color? m.slots i :=
      color?_repaint hblock .black
    have hself : color? opened.slots slot = some .black := by rw [hrepaint, if_pos rfl]
    have hblackened : opened.Tricolor base held fun s => pending s ∨ s = slot :=
      h.blacken hblock hcolor rfl rfl rfl rfl
    have hopen : opened.Tricolor base held pending := hblackened.settle (by simp [hself])
    have hdark : m.Darkens opened := by
      refine ⟨fun i hi => (reached_repaint hblock (by decide) rfl i).mpr (Or.inl hi), ?_⟩
      intro i hi
      rw [hrepaint, hi]
      split <;> rfl
    have hedges : ∀ v ∈ block.body.edges, ∀ next, v.slot? = some next → held next :=
      hheld slot (painted block .white) (h.sound slot ⟨block, hblock, hcolor⟩)
        (h.base_getElem? hblock)
    rw [hscan]
    apply (shadeAll_spec hopen hedges).mono
    rintro m' - ⟨htri, hshades⟩
    refine ⟨htri, ?_, hdark.trans hshades.darkens, hshades.darkens.black slot hself⟩
    intro i found hfound hfoundColor v hv next hnext
    by_cases hi : i = slot
    · subst hi
      have hbody := h.body_eq htri hblock hfound
      exact hshades.reached v (hbody ▸ hv) next hnext
    · -- a block that was black before has its edges shaded already
      have hold := hshades.black_eq i (color?_eq_some.mpr ⟨found, hfound, hfoundColor⟩)
      rw [hrepaint, if_neg hi] at hold
      obtain ⟨old, hget, hblackOld⟩ := color?_eq_some.mp hold
      have hbody := h.body_eq htri hget hfound
      exact (hdark.trans hshades.darkens).reached next
        (hshaded i old hget hblackOld v (hbody ▸ hv) next hnext)

/-- Scanning the block on top of the stack. -/
theorem scan_popped {pending : Nat → Prop} {m : Marker} {slot : Nat} (hheld : EdgeClosed base held)
    (h : m.Tricolor base held pending) (hshaded : m.Shaded) (hstack : m.stack.back? = some slot) :
    Marks base held ({ m with stack := m.stack.pop }.scan slot) fun m' =>
      m'.Tricolor base held pending ∧ m'.Shaded ∧ m.Darkens m' := by
  obtain ⟨rest, hpush⟩ := Array.back?_eq_some_iff.mp hstack
  have hpop : m.stack.pop = rest := by rw [hpush, Array.pop_push]
  have hpopped : ({ m with stack := m.stack.pop } : Marker).Tricolor base held
      fun s => pending s ∨ s = slot := by
    refine ⟨h.recolors, ?_, ?_, h.sound, h.marked_eq⟩
    · intro i hi
      rw [hpop] at hi
      exact h.stacked i (by rw [hpush]; exact Array.mem_push_of_mem slot hi)
    · intro i hi
      rcases h.greys i hi with hmem | hover | hpend
      · rw [hpush, Array.mem_push] at hmem
        rcases hmem with hmem | rfl
        · exact Or.inl (by rw [hpop]; exact hmem)
        · exact Or.inr (Or.inr (Or.inr rfl))
      · exact Or.inr (Or.inl hover)
      · exact Or.inr (Or.inr (Or.inl hpend))
  have hslot : m.Reached slot := h.stacked slot (by rw [hpush]; exact Array.mem_push_self)
  apply (scan_spec hheld hpopped hshaded hslot).mono
  rintro m' - ⟨htri, hshaded', hdark, -⟩
  exact ⟨htri, hshaded', hdark.reached, hdark.black⟩

/-- Draining the stack empties it. What is left grey is due to an overflow or to a pass that
is not over. -/
theorem drainStack_spec {pending : Nat → Prop} (hheld : EdgeClosed base held) (m : Marker)
    (h : m.Tricolor base held pending) (hshaded : m.Shaded) :
    Marks base held m.drainStack fun m' => m'.Tricolor base held pending ∧ m'.Shaded ∧
      m'.stack = #[] ∧ m.Darkens m' := by
  fun_induction drainStack m with
  | case1 m hstack =>
      exact Marks.of_ok ⟨h, hshaded, by simpa using hstack, Darkens.refl m⟩
  | case2 m slot hstack fault hscan =>
      obtain ⟨missing, rfl, hmissing, hbase⟩ :=
        (scan_popped hheld h hshaded hstack).error fault hscan
      exact Marks.dangling hmissing hbase
  | case3 m slot hstack next hscan ih =>
      obtain ⟨htri, hshaded', hdark⟩ := (scan_popped hheld h hshaded hstack).ok next hscan
      apply (ih htri hshaded').mono
      rintro m' - ⟨htri', hshaded'', hempty, hdark'⟩
      exact ⟨htri', hshaded'', hempty, hdark.trans hdark'⟩

theorem pending_drainStack_le {m m' : Marker} (h : m.drainStack = .ok m') :
    m'.pending ≤ m.pending := by
  fun_induction drainStack m with
  | case1 m hstack => cases h; exact Nat.le_refl _
  | case2 m slot hstack fault hscan => cases h
  | case3 m slot hstack next hscan ih =>
      rcases scan_progress hscan with hlt | heq
      · exact Nat.le_trans (ih h) (Nat.le_of_lt hlt)
      · subst heq
        exact ih h

/-- What one pass over the slots does to the one it has come to. -/
def visitGrey (m : Marker) (slot : Nat) : Except Fault Marker := do
  if color? m.slots slot = some .grey then
    let m ← m.scan slot
    m.drainStack
  else
    return m

/-- A visit to a slot that is not grey does nothing. -/
theorem visitGrey_cases {m m' : Marker} {slot : Nat} (h : m.visitGrey slot = .ok m') :
    m' = m ∨ color? m.slots slot = some .grey ∧
      ∃ scanned, m.scan slot = .ok scanned ∧ scanned.drainStack = .ok m' := by
  rw [visitGrey] at h
  split at h
  next hgrey => exact Or.inr ⟨hgrey, bind_eq_ok_iff.mp h⟩
  next => cases h; exact Or.inl rfl

/-- What each visit keeps is kept by a pass. -/
theorem rescan_induction {m m' : Marker} {R : Marker → Marker → Prop} (hrefl : ∀ m, R m m)
    (htrans : ∀ m m' m'', R m m' → R m' m'' → R m m'')
    (hvisit : ∀ m m' slot, m.visitGrey slot = .ok m' → R m m') (h : m.rescan = .ok m') :
    R m m' := by
  have hvisits : ∀ (slots : List Nat) (m : Marker), slots.foldlM visitGrey m = .ok m' → R m m' := by
    intro slots
    induction slots with
    | nil =>
        intro m hm
        cases hm
        exact hrefl _
    | cons slot rest ih =>
        intro m hm
        rw [List.foldlM_cons] at hm
        obtain ⟨next, hnext, hrest⟩ := bind_eq_ok_iff.mp hm
        exact htrans m next m' (hvisit m next slot hnext) (ih next hrest)
  exact hvisits _ m h

/-- Scanning a grey block gets it done. -/
theorem pending_scan_lt {m m' : Marker} {slot : Nat} (hgrey : color? m.slots slot = some .grey)
    (h : m.scan slot = .ok m') : m'.pending < m.pending := by
  obtain ⟨block, hblock, hcolor⟩ := color?_eq_some.mp hgrey
  simp only [scan, hblock, hcolor, reduceCtorEq, ↓reduceIte] at h
  have hlt : (m.slots.setIfInBounds slot (some (painted block .black))).toList.countP isPending <
      m.slots.toList.countP isPending :=
    pending_set_lt hblock (by simp [isPending, hcolor]) (by simp [isPending])
  exact Nat.lt_of_le_of_lt (pending_shadeAll_le h) hlt

/-- A pass gets a block done, or finds nothing to do. -/
theorem rescan_progress {m m' : Marker} (h : m.rescan = .ok m') :
    m'.pending < m.pending ∨ m' = m := by
  apply rescan_induction (R := fun m m' => m'.pending < m.pending ∨ m' = m)
    (fun _ => Or.inr rfl) ?_ ?_ h
  · rintro m m' m'' hfirst (hlt | rfl)
    · rcases hfirst with hlt' | rfl
      · exact Or.inl (Nat.lt_trans hlt hlt')
      · exact Or.inl hlt
    · exact hfirst
  · intro m m' slot hvisit
    rcases visitGrey_cases hvisit with rfl | ⟨hgrey, scanned, hscan, hdrain⟩
    · exact Or.inr rfl
    · exact Or.inl (Nat.lt_of_le_of_lt (pending_drainStack_le hdrain) (pending_scan_lt hgrey hscan))

/-- A visit leaves no grey block behind that is not due to an overflow. -/
theorem visitGrey_spec {m : Marker} {slot : Nat} (hheld : EdgeClosed base held)
    (h : m.Tricolor base held (slot ≤ ·)) (hshaded : m.Shaded) (hempty : m.stack = #[]) :
    Marks base held (m.visitGrey slot) fun m' => m'.Tricolor base held (slot + 1 ≤ ·) ∧
      m'.Shaded ∧ m'.stack = #[] ∧ m.Darkens m' := by
  by_cases hgrey : color? m.slots slot = some .grey
  · obtain ⟨block, hblock, hcolor⟩ := color?_eq_some.mp hgrey
    have hopen : m.Tricolor base held fun s => slot + 1 ≤ s ∨ s = slot := by
      refine ⟨h.recolors, h.stacked, ?_, h.sound, h.marked_eq⟩
      intro i hi
      refine (h.greys i hi).imp_right (Or.imp_right ?_)
      intro hle
      omega
    rw [visitGrey, if_pos hgrey]
    apply (scan_spec hheld hopen hshaded ⟨block, hblock, by rw [hcolor]; decide⟩).bind
    rintro scanned - ⟨htri, hshaded', hdark, -⟩
    apply (drainStack_spec hheld scanned htri hshaded').mono
    rintro m' - ⟨htri', hshaded'', hempty', hdark'⟩
    exact ⟨htri', hshaded'', hempty', hdark.trans hdark'⟩
  · rw [visitGrey, if_neg hgrey]
    refine Marks.of_ok ⟨⟨h.recolors, h.stacked, ?_, h.sound, h.marked_eq⟩, hshaded, hempty,
      Darkens.refl m⟩
    intro i hi
    refine (h.greys i hi).imp_right (Or.imp_right ?_)
    intro hle
    have hne : i ≠ slot := fun heq => hgrey (heq ▸ hi)
    omega

theorem visitGreys_spec (hheld : EdgeClosed base held) (count start : Nat) (m : Marker)
    (h : m.Tricolor base held (start ≤ ·)) (hshaded : m.Shaded) (hempty : m.stack = #[]) :
    Marks base held ((List.range' start count).foldlM visitGrey m) fun m' =>
      m'.Tricolor base held (start + count ≤ ·) ∧ m'.Shaded ∧ m'.stack = #[] ∧ m.Darkens m' := by
  induction count generalizing start m with
  | zero => exact Marks.of_ok ⟨h, hshaded, hempty, Darkens.refl m⟩
  | succ count ih =>
      rw [List.range'_succ, List.foldlM_cons]
      apply (visitGrey_spec hheld h hshaded hempty).bind
      rintro next - ⟨htri, hshaded', hempty', hdark⟩
      apply (ih (start + 1) next htri hshaded' hempty').mono
      rintro m' - ⟨htri', hshaded'', hempty'', hdark'⟩
      rw [Nat.add_assoc, Nat.add_comm 1 count] at htri'
      exact ⟨htri', hshaded'', hempty'', hdark.trans hdark'⟩

/-- A pass over all slots leaves grey only what a new overflow has left. -/
theorem rescan_spec {m : Marker} (hheld : EdgeClosed base held)
    (h : m.Tricolor base held fun _ => True) (hshaded : m.Shaded) (hempty : m.stack = #[]) :
    Marks base held m.rescan fun m' => m'.Tricolor base held (fun _ => False) ∧ m'.Shaded ∧
      m'.stack = #[] ∧ m.Darkens m' := by
  have hstart : m.Tricolor base held (0 ≤ ·) :=
    ⟨h.recolors, h.stacked, fun i _ => Or.inr (Or.inr (Nat.zero_le i)), h.sound, h.marked_eq⟩
  rw [rescan, List.range_eq_range']
  apply (visitGreys_spec hheld m.slots.size 0 m hstart hshaded hempty).mono
  rintro m' - ⟨htri, hshaded', hempty', hdark⟩
  refine ⟨⟨htri.recolors, htri.stacked, ?_, htri.sound, htri.marked_eq⟩, hshaded', hempty', hdark⟩
  intro i hi
  refine (htri.greys i hi).imp_right (Or.imp_right ?_)
  intro hle
  obtain ⟨block, hblock, _⟩ := color?_eq_some.mp hi
  have hlt := (Array.getElem?_eq_some_iff.mp hblock).1
  have hsize : m'.slots.size = m.slots.size := by
    have := congrArg Array.size (htri.recolors.trans h.recolors.symm)
    simpa using this
  omega

/-- What marking from a list of starts leaves behind: no grey block and an empty stack. -/
structure Drained (base : Array (Option Block)) (held : Nat → Prop) (m : Marker) : Prop where
  tricolor : m.Tricolor base held fun _ => False
  shaded : m.Shaded
  stack_eq : m.stack = #[]
  overflowed_eq : m.overflowed = false

theorem Drained.not_grey {m : Marker} (h : m.Drained base held) (slot : Nat) :
    color? m.slots slot ≠ some .grey := by
  intro hgrey
  rcases h.tricolor.greys slot hgrey with hstack | hover | hfalse
  · rw [h.stack_eq] at hstack
    simp at hstack
  · rw [h.overflowed_eq] at hover
    cases hover
  · exact hfalse

theorem Drained.black_of_reached {m : Marker} (h : m.Drained base held) {slot : Nat}
    {block : Block} (hblock : m.slots[slot]? = some (some block)) (hslot : m.Reached slot) :
    block.header.color = .black := by
  obtain ⟨found, hfound, hcolor⟩ := hslot
  rw [hblock] at hfound
  cases hfound
  cases hc : block.header.color with
  | white => exact absurd hc hcolor
  | grey => exact absurd (color?_eq_some.mpr ⟨block, hblock, hc⟩) (h.not_grey slot)
  | black => rfl

/-- Draining ends with no grey block, whatever the size of the stack. -/
theorem drain_spec (hheld : EdgeClosed base held) (m : Marker)
    (h : m.Tricolor base held fun _ => False) (hshaded : m.Shaded) :
    Marks base held m.drain fun m' => m'.Drained base held ∧ m.Darkens m' := by
  -- each round that does not end the loop gets a block done
  induction hn : m.pending using Nat.strongRecOn generalizing m with
  | _ n ih =>
      rw [drain]
      apply (drainStack_spec hheld m h hshaded).bind
      rintro drained hdrain ⟨htri, hshaded', hempty, hdark⟩
      cases hover : drained.overflowed with
      | false => exact Marks.of_ok ⟨⟨htri, hshaded', hempty, hover⟩, hdark⟩
      | true =>
          let again : Marker := { drained with overflowed := false, rescans := drained.rescans + 1 }
          have hagain : again.Tricolor base held fun _ => True :=
            ⟨htri.recolors, htri.stacked, fun _ _ => Or.inr (Or.inr trivial), htri.sound,
              htri.marked_eq⟩
          apply (rescan_spec hheld hagain hshaded' hempty).bind
          rintro passed hpass ⟨htri', hshaded'', hempty', hdark'⟩
          have hdarkens : m.Darkens passed := hdark.trans ⟨hdark'.reached, hdark'.black⟩
          by_cases hlt : passed.pending < m.pending
          · rw [if_pos hlt]
            apply (ih passed.pending (hn ▸ hlt) passed htri' hshaded'' rfl).mono
            rintro m' - ⟨hm', hrest⟩
            exact ⟨hm', hdarkens.trans hrest⟩
          · rw [if_neg hlt]
            refine Marks.of_ok ⟨⟨htri', hshaded'', hempty', ?_⟩, hdarkens⟩
            rcases rescan_progress hpass with hlt' | heq
            · have hle := pending_drainStack_le hdrain
              have hsame : again.pending = drained.pending := rfl
              omega
            · rw [heq]

end Tricolor

end Marker

end ObjectHeap
