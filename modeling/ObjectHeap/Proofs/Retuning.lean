import ObjectHeap.Attribute
import ObjectHeap.Frame
import ObjectHeap.Iteration
import ObjectHeap.Proofs.Collection
import ObjectHeap.Proofs.Outcomes

/-! # Mark stacks of two sizes

A heap is *retuned* if its mark stack gets another size. Marking then visits blocks in another
order and may need another number of rescans, but it finds the same blocks: what a sweep starts
from, and with it all that follows, is the same. Nothing is assumed about the references in the
heap. Where marking meets one to no block, it does so for every size of the stack, though not
always at the same reference first.

Steps on a heap and on its retuned twin are compared by `Locks`, with one rule for each way of
composing steps.
-/

namespace ObjectHeap

/-- A report without the number of rescans. -/
def CycleReport.trimmed (report : CycleReport) : CycleReport := { report with rescans := 0 }

/-- Equal faults, or references to no block that marking met. -/
def Fault.Alike (f g : Fault) : Prop :=
  f = g ∨ ∃ s t, f = .danglingWhileMarking s ∧ g = .danglingWhileMarking t

namespace Heap

/-- The heap with a mark stack of another size and another report of its last collection. -/
def retuned (h : Heap) (n : Nat) (last : Option CycleReport) : Heap :=
  { h with settings := { h.settings with markStackSize := n }, lastCycle := last }

/-- No collection is going on, and none has left marks behind. -/
structure Calm (h : Heap) : Prop where
  unmarked : h.Unmarked
  markStack_eq : h.markStack = #[]
  phase_eq : h.phase = .idle

/-- A calm heap and a retuned one whose last collection differs in rescans at most. -/
structure Paired (h k : Heap) : Prop where
  calm : h.Calm
  retuned : ∃ n last, k = h.retuned n last ∧
    last.map CycleReport.trimmed = h.lastCycle.map CycleReport.trimmed

/-- A part of a heap that neither the size of the mark stack nor the last report is part of. -/
def Unaware {γ : Type} (part : Heap → γ) : Prop :=
  ∀ h n last, part (h.retuned n last) = part h

variable {h k : Heap}

/-- A part that is not aware of retuning is the same in paired heaps. -/
theorem Paired.part_eq {γ : Type} (hp : Paired h k) (part : Heap → γ) (hpart : Unaware part) :
    part k = part h := by
  obtain ⟨n, last, rfl, _⟩ := hp.retuned
  exact hpart h n last

/-- A change that does not look at what retuning changes keeps heaps paired. -/
theorem Paired.map (hp : Paired h k) (change : Heap → Heap)
    (hchange : ∀ h n last, change (h.retuned n last) = (change h).retuned n last)
    (hlast : (change h).lastCycle = h.lastCycle) (hcalm : (change h).Calm) :
    Paired (change h) (change k) := by
  obtain ⟨n, last, rfl, htrim⟩ := hp.retuned
  exact ⟨hcalm, n, last, hchange h n last, by rw [hlast, htrim]⟩

/-- Only slots, stack and phase decide whether a heap is calm. -/
theorem Calm.congr (hc : h.Calm) (hslots : k.slots = h.slots) (hstack : k.markStack = h.markStack)
    (hphase : k.phase = h.phase) : k.Calm := by
  refine ⟨?_, hstack.trans hc.markStack_eq, hphase.trans hc.phase_eq⟩
  intro slot block hblock
  rw [block?_eq_some_iff, hslots] at hblock
  exact hc.unmarked slot block (block?_eq_some_iff.mpr hblock)

/-- Blocks may be changed in all but their color. -/
theorem Calm.modifyBlock (hc : h.Calm) (slot : Nat) {change : Block → Block}
    (hcolor : ∀ b, (change b).header.color = b.header.color) :
    (h.modifyBlock slot change).Calm := by
  refine ⟨?_, hc.markStack_eq, hc.phase_eq⟩
  intro i block hblock
  rw [block?_eq_some_iff, Heap.modifyBlock, Array.getElem?_modify] at hblock
  split at hblock
  next =>
    rcases hi : h.slots[i]? with _ | _ | found
    · simp [hi] at hblock
    · simp [hi] at hblock
    · simp only [hi, Option.map_some, Option.some.injEq] at hblock
      rw [← hblock, hcolor]
      exact hc.unmarked i found (block?_eq_some_iff.mpr hi)
  next => exact hc.unmarked i block (block?_eq_some_iff.mpr hblock)

/-- Paired heaps stay paired when one payload is replaced in both. -/
theorem Paired.setBody (hp : Paired h k) (slot : Nat) (body : Body) :
    Paired (h.setBody slot body) (k.setBody slot body) :=
  hp.map (·.setBody slot body) (fun _ _ _ => rfl) rfl
    (hp.calm.modifyBlock slot fun _ => rfl)

theorem Paired.releaseRegisters (hp : Paired h k) (mark : Nat) :
    Paired (h.releaseRegisters mark) (k.releaseRegisters mark) :=
  hp.map (·.releaseRegisters mark) (fun _ _ _ => rfl) rfl
    (hp.calm.congr rfl rfl rfl)

end Heap

/-! ## Steps side by side -/

/-- Results of two steps that a caller cannot tell apart, up to `S` on the heaps that they leave
and `R` on what they return. -/
inductive Matched {α : Type} (S : Heap → Heap → Prop) (R : α → α → Prop) :
    EStateM.Result Stop Heap α → EStateM.Result Stop Heap α → Prop
  | ok {a b : α} {h k : Heap} : R a b → S h k → Matched S R (.ok a h) (.ok b k)
  | refused {reason : Refusal} {h k : Heap} : S h k →
      Matched S R (.error (.refused reason) h) (.error (.refused reason) k)
  | fault {f g : Fault} {h k : Heap} : f.Alike g →
      Matched S R (.error (.fault f) h) (.error (.fault g) k)

namespace Matched

variable {α β : Type} {S S' : Heap → Heap → Prop} {R R' : α → α → Prop} {Q : β → β → Prop}

/-- Ends that are matched more strictly are matched. -/
theorem mono {r r' : EStateM.Result Stop Heap α} (hr : Matched S R r r')
    (hS : ∀ h k, S h k → S' h k) (hR : ∀ a b, R a b → R' a b) : Matched S' R' r r' := by
  cases hr with
  | ok hab hp => exact .ok (hR _ _ hab) (hS _ _ hp)
  | refused hp => exact .refused (hS _ _ hp)
  | fault hf => exact .fault hf

/-- Matched steps compose, if matched results lead to matched steps. -/
theorem bind {x y : HeapM α} {f g : α → HeapM β} {h k : Heap} (hx : Matched S R (x h) (y k))
    (hf : ∀ a b h' k', R a b → S h' k' → Matched S Q (f a h') (g b k')) :
    Matched S Q ((x >>= f) h) ((y >>= g) k) := by
  change Matched S Q (EStateM.bind x f h) (EStateM.bind y g k)
  unfold EStateM.bind
  generalize x h = r at hx
  generalize y k = r' at hx
  cases hx with
  | ok hab hp => exact hf _ _ _ _ hab hp
  | refused hp => exact .refused hp
  | fault hfault => exact .fault hfault

end Matched

/-- From the heaps `h` and `k`, two steps come to the same. -/
def Locks {α : Type} (x y : HeapM α) (h k : Heap) : Prop :=
  Matched Heap.Paired Eq (x h) (y k)

/-- A step that comes to the same on paired heaps. -/
def Blind {α : Type} (x : HeapM α) : Prop := ∀ h k, h.Paired k → Locks x x h k

variable {α β : Type} {h k : Heap}

namespace Locks

theorem pure {a : α} (hp : h.Paired k) : Locks (pure a) (pure a) h k := Matched.ok rfl hp

theorem refuse {reason : Refusal} (hp : h.Paired k) :
    Locks (throw (.refused reason) : HeapM α) (throw (.refused reason)) h k := Matched.refused hp

theorem refuse_bind {reason : Refusal} {f g : α → HeapM β} (hp : h.Paired k) :
    Locks (throw (.refused reason) >>= f) (throw (.refused reason) >>= g) h k :=
  Matched.refused hp

theorem fault {f : Fault} :
    Locks (throw (.fault f) : HeapM α) (throw (.fault f)) h k := Matched.fault (.inl rfl)

/-- Locked steps compose: from equal results and paired heaps, the next ones are locked. -/
theorem bind {x y : HeapM α} {f g : α → HeapM β} (hx : Locks x y h k)
    (hf : ∀ a h' k', h'.Paired k' → Locks (f a) (g a) h' k') :
    Locks (x >>= f) (y >>= g) h k := by
  apply Matched.bind hx
  rintro a _ h' k' rfl hp
  exact hf a h' k' hp

theorem get {f g : Heap → HeapM β} (hf : Locks (f h) (g k) h k) :
    Locks (get >>= f) (get >>= g) h k := hf

theorem set {h' k' : Heap} (hp : h'.Paired k') :
    Locks (set h' : HeapM PUnit) (set k') h k := Matched.ok rfl hp

theorem set_bind {h' k' : Heap} {f g : PUnit → HeapM β} (hf : Locks (f ⟨⟩) (g ⟨⟩) h' k') :
    Locks (MonadState.set h' >>= f) (MonadState.set k' >>= g) h k := hf

/-- A value that does not hang on the heap. -/
theorem lift {x : Except Stop α} {f g : α → HeapM β} (hp : h.Paired k)
    (hf : ∀ a, Locks (f a) (g a) h k) : Locks (liftM x >>= f) (liftM x >>= g) h k := by
  cases x with
  | ok a => exact hf a
  | error stop =>
      cases stop with
      | refused reason => exact Matched.refused hp
      | fault f => exact Matched.fault (.inl rfl)

/-- A lookup that is the same in both heaps either faults in both or goes on with one result. -/
theorem liftFault {x : Except Fault α} {f g : α → HeapM β}
    (hf : ∀ a, x = .ok a → Locks (f a) (g a) h k) :
    Locks (liftM x >>= f) (liftM x >>= g) h k := by
  cases x with
  | ok a => exact hf a rfl
  | error f => exact Matched.fault (.inl rfl)

theorem of_fault {x : Except Fault α} (hp : h.Paired k) :
    Locks (liftM x : HeapM α) (liftM x) h k := by
  cases x with
  | ok a => exact pure hp
  | error f => exact Matched.fault (.inl rfl)

/-- A read that is not aware of the mark stack. -/
theorem read {f g : α → HeapM β} (hp : h.Paired k) (part : Heap → Except Stop α)
    (hpart : Heap.Unaware part) (hf : ∀ a, Locks (f a) (g a) h k) :
    Locks (liftM (part h) >>= f) (liftM (part k) >>= g) h k := by
  rw [hp.part_eq part hpart]
  exact lift hp hf

/-- What a part says that is not aware of retuning is the same in both heaps. -/
theorem look {f g : α → HeapM β} (hp : h.Paired k) (part : Heap → Except Fault α)
    (hpart : Heap.Unaware part) (hf : ∀ a, Locks (f a) (g a) h k) :
    Locks (liftM (part h) >>= f) (liftM (part k) >>= g) h k := by
  rw [hp.part_eq part hpart]
  exact liftFault fun a _ => hf a

/-- A condition on anything but the heap sends both sides the same way. -/
theorem ite {c : Prop} [Decidable c] {x x' y y' : HeapM α} (hx : c → Locks x x' h k)
    (hy : ¬ c → Locks y y' h k) :
    Locks (if c then x else y) (if c then x' else y') h k := by
  by_cases hc : c
  · rw [if_pos hc, if_pos hc]
    exact hx hc
  · rw [if_neg hc, if_neg hc]
    exact hy hc

end Locks

namespace Blind

theorem pure (a : α) : Blind (pure a : HeapM α) := fun _ _ hp => Locks.pure hp

/-- Blind steps compose. -/
theorem bind {x : HeapM α} {f : α → HeapM β} (hx : Blind x) (hf : ∀ a, Blind (f a)) :
    Blind (x >>= f) :=
  fun h k hp => (hx h k hp).bind fun a h' k' hp' => hf a h' k' hp'

theorem map {x : HeapM α} {f : α → β} (hx : Blind x) : Blind (f <$> x) :=
  hx.bind fun a => pure (f a)

/-- A step that starts with a read of the heap. -/
theorem read {f : α → HeapM β} (part : Heap → Except Stop α) (hpart : Heap.Unaware part)
    (hf : ∀ a, Blind (f a)) : Blind (do f (← part (← get))) :=
  fun h k hp => Locks.get (Locks.read hp part hpart fun a => hf a h k hp)

theorem lift {x : Except Fault α} {f : α → HeapM β} (hf : ∀ a, x = .ok a → Blind (f a)) :
    Blind (liftM x >>= f) :=
  fun h k hp => Locks.liftFault fun a ha => hf a ha h k hp

/-- A loop over blind steps is blind. -/
theorem forM {items : List β} {f : β → HeapM PUnit} (hf : ∀ item, Blind (f item)) :
    Blind (items.forM f) := by
  induction items with
  | nil => exact pure PUnit.unit
  | cons item rest ih => exact (hf item).bind fun _ => ih

end Blind

/-- Registers are the same on paired heaps, and so is what is kept in them for a while. -/
theorem Blind.protecting {values : List Value} {x : HeapM α} (hx : Blind x) :
    Blind (Heap.protecting values x) := by
  intro h k hp
  have hkept : Heap.Paired { h with registers := h.registers ++ values }
      { k with registers := k.registers ++ values } :=
    hp.map (fun h => { h with registers := h.registers ++ values }) (fun _ _ _ => rfl) rfl
      (hp.calm.congr rfl rfl rfl)
  have hmark : k.registerMark = h.registerMark :=
    hp.part_eq Heap.registerMark fun _ _ _ => rfl
  have hrun := hx _ _ hkept
  unfold Locks at hrun ⊢
  simp only [Heap.protecting, hmark]
  generalize x { h with registers := h.registers ++ values } = r at hrun
  generalize x { k with registers := k.registers ++ values } = r' at hrun
  cases hrun with
  | ok heq hp' => exact .ok heq (hp'.releaseRegisters h.registerMark)
  | refused hp' => exact .refused (hp'.releaseRegisters h.registerMark)
  | fault hf => exact .fault hf

/-! ## Collection -/

namespace Sweep

/-- What a sweep has come past holds no marks. -/
structure Cleared (size start : Nat) (s : Sweep) : Prop where
  size_eq : s.slots.size = size
  white : ∀ i, i < start → ∀ block, s.slots[i]? = some (some block) →
    block.header.color = .white

/-- A visit to a block leaves one without a mark, or none. -/
theorem slots_of_visit {s s' : Sweep} {slot : Nat} (h : s.visit slot = .ok s') :
    s.slots[slot]?.join = none ∧ s' = s ∨
      ∃ new, s'.slots = s.slots.setIfInBounds slot new ∧
        ∀ block, new = some block → block.header.color = .white := by
  unfold visit at h
  cases hslot : s.slots[slot]?.join with
  | none =>
      simp only [hslot, pure, Except.pure, Except.ok.injEq] at h
      exact Or.inl ⟨rfl, h.symm⟩
  | some block =>
      right
      cases hcolor : block.header.color with
      | grey => simp [hslot, hcolor] at h
      | black =>
          simp only [hslot, hcolor, pure, Except.pure, Except.ok.injEq] at h
          subst h
          refine ⟨_, rfl, ?_⟩
          rintro found hfound
          rw [← Option.some.inj hfound, Marker.painted_color]
      | white =>
          simp only [hslot, hcolor, bind, Except.bind, pure, Except.pure] at h
          cases hrequire : require (block.body.blockSize = block.header.size) .misfit with
          | error f => simp [hrequire] at h
          | ok _ =>
              cases hrelease : s.arena.release block.header.extent with
              | error f => simp [hrequire, hrelease] at h
              | ok arena =>
                  simp only [hrequire, hrelease, Except.ok.injEq] at h
                  subst h
                  exact ⟨none, rfl, by simp⟩

/-- A visit clears the mark of the block at its slot and moves on to the next slot. -/
theorem Cleared.visit {size slot : Nat} {s s' : Sweep} (hs : s.Cleared size slot)
    (h : s.visit slot = .ok s') : s'.Cleared size (slot + 1) := by
  rcases slots_of_visit h with ⟨hnone, rfl⟩ | ⟨new, hslots, hnew⟩
  · refine ⟨hs.size_eq, ?_⟩
    intro i hi block hblock
    by_cases heq : i = slot
    · subst heq
      simp [hblock] at hnone
    · exact hs.white i (by omega) block hblock
  · refine ⟨by rw [hslots, Array.size_setIfInBounds, hs.size_eq], ?_⟩
    intro i hi block hblock
    rw [hslots, Array.getElem?_setIfInBounds] at hblock
    split at hblock
    next =>
      split at hblock
      next => exact hnew block (Option.some.inj hblock)
      next => cases hblock
    next => exact hs.white i (by omega) block hblock

/-- A run of visits clears the marks of all slots that it has passed. -/
theorem Cleared.visits {size steps start : Nat} {s s' : Sweep} (hs : s.Cleared size start)
    (h : (List.range' start steps).foldlM Sweep.visit s = .ok s') :
    s'.Cleared size (start + steps) := by
  induction steps generalizing start s with
  | zero =>
      cases h
      exact hs
  | succ steps ih =>
      rw [List.range'_succ, List.foldlM_cons] at h
      cases hvisit : s.visit start with
      | error f => simp [hvisit, bind, Except.bind] at h
      | ok next =>
          rw [hvisit] at h
          have hrest := ih (hs.visit hvisit) h
          rwa [Nat.add_assoc, Nat.add_comm 1 steps] at hrest

end Sweep

namespace Heap

/-- Two markings that reach the same blocks leave the same slots, whatever the order was. -/
theorem Marked.slots_eq {held : Nat → Prop} {m m' : Marker} (hm : h.Marked held m)
    (hm' : h.Marked held m') : m'.slots = m.slots := by
  apply Array.ext_getElem?
  intro i
  have hblanched := congrArg (·[i]?) (hm'.recolors.trans hm.recolors.symm)
  simp only [Array.getElem?_map] at hblanched
  rcases hi : m.slots[i]? with _ | _ | block <;> rcases hi' : m'.slots[i]? with _ | _ | block'
  all_goals simp only [hi, hi', Option.map_none, Option.map_some, Marker.blanched, reduceCtorEq,
    Option.some.injEq] at hblanched ⊢
  have hcolor : block'.header.color = block.header.color := by
    by_cases hheld : held i
    · rw [hm.black i block hi hheld, hm'.black i block' hi' hheld]
    · rw [hm.white i block hi hheld, hm'.white i block' hi' hheld]
  calc block' = Marker.painted (Marker.painted block' .white) block'.header.color := rfl
    _ = Marker.painted (Marker.painted block .white) block.header.color := by
        rw [hblanched, hcolor]
    _ = block := rfl

/-- A sweep leaves no marks. -/
theorem white_of_sweep {slots : Array (Option Block)} {s : Sweep} (hsweep : h.sweep slots = .ok s)
    {slot : Nat} {block : Block} (hblock : s.slots[slot]? = some (some block)) :
    block.header.color = .white := by
  rw [sweep, List.range_eq_range'] at hsweep
  have hcleared : s.Cleared slots.size (0 + slots.size) :=
    Sweep.Cleared.visits ⟨rfl, by simp⟩ hsweep
  have hlt := (Array.getElem?_eq_some_iff.mp hblock).1
  rw [hcleared.size_eq] at hlt
  exact hcleared.white slot (by omega) block hblock

/-- Marking a heap and a retuned one ends in the same marks, or at references to no block. -/
theorem mark_retuned (hc : h.Calm) (n : Nat) (last : Option CycleReport)
    (roots awaited : List Value) :
    (∃ m m', h.mark roots awaited = .ok m ∧ (h.retuned n last).mark roots awaited = .ok m' ∧
      m'.slots = m.slots ∧ m'.marked = m.marked ∧ m.stack = #[] ∧ m'.stack = #[]) ∨
    ∃ s t, h.mark roots awaited = .error (.danglingWhileMarking s) ∧
      (h.retuned n last).mark roots awaited = .error (.danglingWhileMarking t) := by
  have hmarks := mark_marks hc.unmarked hc.markStack_eq roots awaited
  have hmarks' := mark_marks (h := h.retuned n last) hc.unmarked hc.markStack_eq roots awaited
  cases hmark : h.mark roots awaited with
  | error f =>
      obtain ⟨s, rfl, hheld, hbase⟩ := hmarks.error f hmark
      cases hmark' : (h.retuned n last).mark roots awaited with
      | error g =>
          obtain ⟨t, rfl, _⟩ := hmarks'.error g hmark'
          exact Or.inr ⟨s, t, rfl, rfl⟩
      | ok m' => exact absurd ((hmarks'.ok m' hmark').occupied s hheld) hbase
  | ok m =>
      have hm := hmarks.ok m hmark
      cases hmark' : (h.retuned n last).mark roots awaited with
      | error g =>
          obtain ⟨t, rfl, hheld, hbase⟩ := hmarks'.error g hmark'
          exact absurd (hm.occupied t hheld) hbase
      | ok m' =>
          have hm' := hmarks'.ok m' hmark'
          have hslots : m'.slots = m.slots :=
            hm.slots_eq ⟨hm'.stack_eq, hm'.recolors, hm'.occupied, hm'.black, hm'.white,
              hm'.marked_eq⟩
          refine Or.inl ⟨m, m', rfl, rfl, hslots, ?_, hm.stack_eq, hm'.stack_eq⟩
          rw [hm.marked_eq, hm'.marked_eq, hslots]

/-- A cycle of paired heaps ends in paired heaps and in reports that differ in rescans at most,
or in like faults. -/
theorem Paired.cycle (hp : Paired h k) (roots awaited : List Value) :
    (∃ report report' h' k', h.cycle roots awaited = .ok (report, h') ∧
      k.cycle roots awaited = .ok (report', k') ∧ report'.trimmed = report.trimmed ∧
      Paired h' k') ∨
    ∃ f g, h.cycle roots awaited = .error f ∧ k.cycle roots awaited = .error g ∧ f.Alike g := by
  obtain ⟨n, last, rfl, _⟩ := hp.retuned
  have hphase : (h.retuned n last).phase = .idle := hp.calm.phase_eq
  rw [cycle_eq hp.calm.phase_eq, cycle_eq hphase]
  rcases mark_retuned hp.calm n last roots awaited with
    ⟨m, m', hmark, hmark', hslots, hmarked, hstack, hstack'⟩ | ⟨s, t, hmark, hmark'⟩
  · have hsame : (h.retuned n last).sweep m'.slots = h.sweep m.slots := by
      rw [hslots]
      rfl
    simp only [hmark, hmark', hsame, bind, Except.bind]
    cases hsweep : h.sweep m.slots with
    | error f => exact Or.inr ⟨f, f, rfl, rfl, Or.inl rfl⟩
    | ok s =>
        have htrim : ((h.retuned n last).swept m' s).1.trimmed = (h.swept m s).1.trimmed := by
          simp only [swept, CycleReport.trimmed, hmarked]
          rfl
        refine Or.inl ⟨_, _, _, _, rfl, rfl, htrim, ⟨?_, hstack, rfl⟩, n,
          some ((h.retuned n last).swept m' s).1, ?_, congrArg some htrim⟩
        · intro slot block hblock
          exact white_of_sweep hsweep (block?_eq_some_iff.mp hblock)
        · simp only [hstack, hstack']
          rfl
  · simp only [hmark, hmark', bind, Except.bind]
    exact Or.inr ⟨_, _, rfl, rfl, Or.inr ⟨s, t, rfl, rfl⟩⟩

/-- A cycle within a step: what follows starts from like reports and paired heaps. -/
theorem Paired.cycle_bind {R : α → α → Prop} {f g : CycleReport × Heap → HeapM α}
    (hp : Paired h k) (roots awaited : List Value)
    (hf : ∀ report report' h' k', report'.trimmed = report.trimmed → Paired h' k' →
      Matched Paired R (f (report, h') h) (g (report', k') k)) :
    Matched Paired R ((liftM (h.cycle roots awaited) >>= f) h)
      ((liftM (k.cycle roots awaited) >>= g) k) := by
  rcases hp.cycle roots awaited with ⟨report, report', h', k', hcycle, hcycle', htrim, hp'⟩ |
    ⟨f, g, hcycle, hcycle', halike⟩
  · rw [hcycle, hcycle']
    exact hf report report' h' k' htrim hp'
  · rw [hcycle, hcycle']
    exact .fault halike

/-- Collections of paired heaps end alike, and their reports differ in rescans at most. -/
theorem collect_matched (hp : Paired h k) (roots : List Value) :
    Matched Paired (fun report report' => report'.trimmed = report.trimmed) (collect roots h)
      (collect roots k) :=
  hp.cycle_bind roots [] fun _ _ _ _ htrim hp' => .ok htrim hp'

/-! ## Allocation -/

/-- A reservation looks at the free space only. -/
theorem tryReserve_blind (size : Nat) : Blind (tryReserve size) := by
  intro h k hp
  refine Locks.get (Locks.look hp (·.arena.reserve size) (fun _ _ _ => rfl) fun found => ?_)
  cases found with
  | none => exact Locks.pure hp
  | some found =>
      refine Locks.set_bind (Locks.pure ?_)
      exact hp.map (fun h => { h with arena := found.2 }) (fun _ _ _ => rfl) rfl
        (hp.calm.congr rfl rfl rfl)

/-- A reservation that collects first finds the same space in both heaps, for the collections
free the same blocks. -/
theorem reserve_blind (roots : List Value) (size : Nat) (awaited : List Value) :
    Blind (reserve roots size awaited) := by
  intro h k hp
  refine (tryReserve_blind size h k hp).bind fun found h k hp => ?_
  cases found with
  | some extent => exact Locks.pure hp
  | none =>
      have hsize : k.settings.heapSize = h.settings.heapSize :=
        hp.part_eq (·.settings.heapSize) fun _ _ _ => rfl
      have hshort : k.outOfMemory size = h.outOfMemory size :=
        hp.part_eq (·.outOfMemory size) fun _ _ _ => rfl
      refine Locks.get ?_
      rw [hsize, hshort]
      refine Locks.ite (fun _ => Locks.refuse_bind hp) fun _ => ?_
      refine hp.cycle_bind roots awaited fun _ _ h k _ hp => Locks.set_bind ?_
      refine (tryReserve_blind size h k hp).bind fun found _ _ hp' => ?_
      cases found with
      | some extent => exact Locks.pure hp'
      | none =>
          rw [show k.outOfMemory size = h.outOfMemory size from
            hp.part_eq (·.outOfMemory size) fun _ _ _ => rfl]
          exact Locks.refuse hp'

/-- A block that is not marked may be added. -/
theorem Calm.fill (hc : h.Calm) {block : Block} (hwhite : block.header.color = .white)
    {slots : Array (Option Block)} (hslots : ∀ (i : Nat) (found : Block),
      slots[i]? = some (some found) → found = block ∨ h.slots[i]? = some (some found))
    (freeSlots : List Nat) (liveObjects : Nat) :
    ({ h with slots, freeSlots, liveObjects } : Heap).Calm := by
  refine ⟨?_, hc.markStack_eq, hc.phase_eq⟩
  intro i found hfound
  rcases hslots i found (block?_eq_some_iff.mp hfound) with rfl | hold
  · exact hwhite
  · exact hc.unmarked i found (block?_eq_some_iff.mpr hold)

/-- A block is installed in the same slot, if it is not marked. -/
theorem install_blind {block : Block} (hwhite : block.header.color = .white) :
    Blind (install block) := by
  intro h k hp
  have hfree : k.freeSlots = h.freeSlots := hp.part_eq (·.freeSlots) fun _ _ _ => rfl
  have hsize : k.slots.size = h.slots.size := hp.part_eq (·.slots.size) fun _ _ _ => rfl
  unfold Locks install
  rw [modifyGet_apply, modifyGet_apply, hfree, hsize]
  cases h.freeSlots with
  | cons slot rest =>
      refine .ok rfl (hp.map (fun h => { h with
        slots := h.slots.setIfInBounds slot (some block)
        freeSlots := rest
        liveObjects := h.liveObjects + 1 }) (fun _ _ _ => rfl) rfl (hp.calm.fill hwhite ?_ _ _))
      intro i found hfound
      rw [Array.getElem?_setIfInBounds] at hfound
      split at hfound
      next =>
        split at hfound
        next => exact Or.inl (Option.some.inj (Option.some.inj hfound)).symm
        next => cases hfound
      next => exact Or.inr hfound
  | nil =>
      refine .ok rfl (hp.map (fun h => { h with
        slots := h.slots.push (some block)
        freeSlots := []
        liveObjects := h.liveObjects + 1 }) (fun _ _ _ => rfl) rfl (hp.calm.fill hwhite ?_ _ _))
      intro i found hfound
      rw [Array.getElem?_push] at hfound
      split at hfound
      next => exact Or.inl (Option.some.inj (Option.some.inj hfound)).symm
      next => exact Or.inr hfound

/-- An allocation is blind, with the collection that it may start. -/
theorem allocate_blind (roots : List Value) (kind : Kind) (body : Body) :
    Blind (allocate roots kind body) := by
  refine Blind.lift fun _ _ => (reserve_blind roots _ _).bind fun extent => ?_
  refine Blind.lift fun header hheader => install_blind ?_
  unfold Header.new at hheader
  split at hheader
  next => cases hheader
  next =>
    cases hheader
    rfl

/-- A resize is blind, with the collection that it may start. -/
theorem resize_blind (roots : List Value) (slot : Nat) (operands : List Value) (size : Nat)
    (grow : Body → Except Fault Body) : Blind (resize roots slot operands size grow) := by
  intro h k hp
  refine Locks.get (Locks.look hp (·.block slot) (fun _ _ _ => rfl) fun old => ?_)
  refine ((reserve_blind roots size []).protecting h k hp).bind fun extent h k hp => ?_
  refine Locks.get (Locks.look hp (·.block slot) (fun _ _ _ => rfl) fun block => ?_)
  refine Locks.look hp (·.arena.release old.header.extent) (fun _ _ _ => rfl) fun arena => ?_
  refine Locks.liftFault fun body _ => Locks.liftFault fun _ _ => Locks.set ?_
  have hcalm : ({ h with arena } : Heap).Calm := hp.calm.congr rfl rfl rfl
  exact hp.map (fun h => ({ h with arena } : Heap).modifyBlock slot fun b =>
    ⟨{ b.header with extent }, body⟩) (fun _ _ _ => rfl) rfl (hcalm.modifyBlock slot fun _ => rfl)

/-! ## Reads that go deep -/

section Depth

variable [Digest]

/-- By induction on the depth: a hash reads payloads only. -/
theorem hashWithin_retuned (h : Heap) (n : Nat) (last : Option CycleReport) (depth : Nat) :
    (h.retuned n last).hashWithin depth = h.hashWithin depth := by
  induction depth with
  | zero => rfl
  | succ depth ih =>
      funext key
      unfold hashWithin
      rw [ih]
      rfl

theorem hashOf_unaware (key : Value) : Unaware (·.hashOf key) :=
  fun h n last => congrFun (hashWithin_retuned h n last _) key

omit [Digest] in
/-- By induction on the depth: a comparison reads payloads only. -/
theorem equalWithin_retuned (h : Heap) (n : Nat) (last : Option CycleReport) (depth : Nat) :
    (h.retuned n last).equalWithin depth = h.equalWithin depth := by
  induction depth with
  | zero => rfl
  | succ depth ih =>
      funext a b
      unfold equalWithin
      rw [ih]
      rfl

omit [Digest] in
theorem valuesEqual_unaware (a b : Value) : Unaware (·.valuesEqual a b) :=
  fun h n last => congrFun (congrFun (equalWithin_retuned h n last _) a) b

omit [Digest] in
/-- A probe of a table reads the table and compares keys. -/
theorem find_unaware (slot : Nat) (key : Value) (hash : UInt64) :
    Unaware (·.find slot key hash) := by
  intro h n last
  have hequal : (fun stored => (h.retuned n last).valuesEqual stored key) =
      fun stored => h.valuesEqual stored key :=
    funext fun stored => valuesEqual_unaware stored key h n last
  simp only [find, hequal]
  rfl

theorem hashLookup_unaware (slot : Nat) (key : Value) : Unaware (·.hashLookup slot key) := by
  intro h n last
  simp only [hashLookup, hashOf_unaware key h n last, find_unaware slot key _ h n last]
  rfl

theorem dictGet_unaware (dict key : Value) : Unaware (·.dictGet dict key) := by
  intro h n last
  simp only [dictGet, hashLookup_unaware _ key h n last]
  rfl

theorem setGet_unaware (s key : Value) : Unaware (·.setGet s key) := by
  intro h n last
  simp only [setGet, hashLookup_unaware _ key h n last]
  rfl

theorem checkKeys_unaware (items : List Value) : Unaware (·.checkKeys items) := by
  intro h n last
  simp only [checkKeys, hashOf_unaware _ h n last]

/-- By induction on the length of the walk: a class is searched through payloads only. -/
theorem classAttrWithin_retuned (h : Heap) (n : Nat) (last : Option CycleReport) (name : Value)
    (length : Nat) :
    (h.retuned n last).classAttrWithin name length = h.classAttrWithin name length := by
  induction length with
  | zero => rfl
  | succ length ih =>
      funext v
      unfold classAttrWithin
      simp only [ih, dictGet_unaware _ name h n last]
      rfl

theorem getAttr_unaware (object name : Value) : Unaware (·.getAttr object name) := by
  intro h n last
  have hclass (v : Value) : (h.retuned n last).classAttr name v = h.classAttr name v :=
    congrFun (classAttrWithin_retuned h n last name _) v
  simp only [getAttr, dictGet_unaware _ name h n last, hclass]
  rfl

end Depth

end Heap

end ObjectHeap
