import Mathlib
import ObjectHeap.Mixing
import ObjectHeap.Proofs.Operations

/-! # Runs

A run makes a new heap and performs operations on it, one after another, with roots and
arguments that are inline or refer to blocks. A refused operation is not the end of it. Every
heap of a run is sound, whatever the digest, and so collections are exact, the representation
is kept, no reference dangles and refusals are atomic.
-/

namespace ObjectHeap

/-- The heap after an operation, be it done or refused. A fault leaves none. -/
def Operation.after? [Digest] (roots : List Value) (op : Operation) (h : Heap) : Option Heap :=
  match op.perform roots h with
  | .ok _ h' | .error (.refused _) h' => some h'
  | .error (.fault _) _ => none

namespace Heap

/-- The heaps of runs. The values passed to an operation are inline or refer to blocks, and all
but those that `admits` lets through can be decoded. -/
inductive Reachable [Digest] (admits : Value → Prop) : Heap → Prop where
  | new {settings : Settings} {h : Heap} : Heap.new settings = .ok h → Reachable admits h
  | step {h h' : Heap} (roots : List Value) (op : Operation) : Reachable admits h →
      (∀ v ∈ roots ++ op.arguments, h.Usable admits v) → op.after? roots h = some h' →
      Reachable admits h'

variable {admits : Value → Prop} {h h' : Heap} {roots : List Value} {op : Operation}

/-- Heaps are made from settings without a flaw, with all their bytes in one free extent. -/
theorem flaw?_of_new {settings : Settings} (hnew : Heap.new settings = .ok h) :
    settings.flaw? = none ∧ h = {
      settings
      slots := #[]
      freeSlots := []
      arena := Arena.new settings.heapSize
      registers := #[]
      markStack := #[]
      phase := .idle
      liveObjects := 0
      collections := 0
      lastCycle := none } := by
  unfold Heap.new at hnew
  split at hnew
  next => cases hnew
  next hflaw =>
    refine ⟨hflaw, ?_⟩
    unfold require at hnew
    split at hnew
    next => exact (Except.ok.inj hnew).symm
    next => cases hnew

/-- A new heap is sound. -/
theorem sound_new [Digest] {settings : Settings} (hnew : Heap.new settings = .ok h) :
    h.Sound admits 0 := by
  obtain ⟨hflaw, rfl⟩ := flaw?_of_new hnew
  obtain ⟨hpos, haligned, _⟩ := heapSize_of_flaw? hflaw
  refine ⟨?_, ?_⟩
  · refine {
      settings_ok := hflaw
      tidy := Arena.tidy_new _
      tiles := ?_
      free_aligned := ?_
      freeSlots_nodup := List.nodup_nil
      mem_freeSlots := by simp
      liveObjects_eq := rfl
      slots_le := Nat.zero_le _
      proper := by simp [block?]
      phase_eq := rfl
      markStack_eq := rfl }
    · rw [Arena.bytes_new]
      simp [ownedBytes]
    · simp only [Arena.new, hpos.ne', ↓reduceIte, List.mem_singleton, forall_eq]
      exact ⟨Nat.dvd_zero 8, Nat.dvd_of_mod_eq_zero haligned⟩
  · refine ⟨by simp [block?], by simp [block?], by simp [block?], by simp, by simp [block?], ?_⟩
    exact ⟨fun _ => 0, by simp [SettledBy, Keeps, block?]⟩

/-- One operation keeps a heap sound, however it ends. -/
theorem perform_sound [Digest] (hs : h.Sound admits 0)
    (hargs : ∀ v ∈ roots ++ op.arguments, h.Usable admits v)
    (hafter : op.after? roots h = some h') : h'.Sound admits 0 := by
  have hyields := Operation.perform_yields hs op hargs
  unfold Operation.after? at hafter
  split at hafter
  next hok =>
    cases hafter
    exact (hyields.result hok).sound
  next hrefused =>
    cases hafter
    exact (hyields.refusal hrefused).sound
  next => cases hafter

/-- What an operation leaves as it was, be it done or refused. -/
theorem carries_after [Digest] (hs : h.Sound admits 0)
    (hargs : ∀ v ∈ roots ++ op.arguments, h.Usable admits v)
    (hafter : op.after? roots h = some h') :
    ∃ target, h.Carries (roots ++ op.arguments) target h' := by
  have hyields := Operation.perform_yields hs op hargs
  unfold Operation.after? at hafter
  split at hafter
  next hok =>
    cases hafter
    exact ⟨_, (hyields.result hok).carries⟩
  next hrefused =>
    cases hafter
    exact ⟨_, (hyields.refusal hrefused).carries⟩
  next => cases hafter

/-- By induction on the run: every heap that can be reached is sound. -/
theorem Reachable.sound [Digest] (hr : h.Reachable admits) : h.Sound admits 0 := by
  induction hr with
  | new hnew => exact sound_new hnew
  | step _ _ _ hargs hafter ih => exact perform_sound ih hargs hafter

/-- A value that can be passed to an operation, and decoded. -/
def passes (h : Heap) (v : Value) : Bool := h.contains v && v.view.toBool

/-- A value that passes the test is usable. -/
theorem usable_of_passes {v : Value} (hv : h.passes v = true) : h.Usable admits v := by
  obtain ⟨hcontains, hview⟩ := Bool.and_eq_true_iff.mp hv
  refine ⟨hcontains, Or.inl ?_⟩
  cases hv : v.view with
  | ok view => exact ⟨view, rfl⟩
  | error fault => simp [hv, Except.toBool] at hview

theorem keyable_of_toBool [Digest] {v : Value} (hv : (h.hashOf v).toBool = true) :
    h.Keyable v := by
  cases hhash : h.hashOf v with
  | ok hash => exact ⟨hash, hhash⟩
  | error stop => simp [hhash, Except.toBool] at hv

/-- The heap after some operations, each with its roots, if they can be passed all values. -/
def script? [Digest] : List (List Value × Operation) → Heap → Option Heap
  | [], h => some h
  | (roots, op) :: script, h =>
      if (roots ++ op.arguments).all h.passes then (op.after? roots h).bind (script? script)
      else none

/-- A script leads from a heap that can be reached to another one. -/
theorem Reachable.script? [Digest] {script : List (List Value × Operation)}
    (hr : h.Reachable admits) (hscript : h.script? script = some h') : h'.Reachable admits := by
  induction script generalizing h with
  | nil =>
      cases hscript
      exact hr
  | cons step script ih =>
      obtain ⟨roots, op⟩ := step
      rw [Heap.script?] at hscript
      split at hscript
      next hall =>
        obtain ⟨mid, hafter, hrest⟩ := Option.bind_eq_some_iff.mp hscript
        have hargs : ∀ v ∈ roots ++ op.arguments, h.Usable admits v :=
          fun v hv => usable_of_passes (List.all_eq_true.mp hall v hv)
        exact ih (hr.step roots op hargs hafter) hrest
      next => cases hscript

/-- What is seen at the end of a script on a new heap, is seen in a heap of a run. -/
theorem exists_reachable_of_script [Digest] (settings : Settings)
    (script : List (List Value × Operation)) {sees : Heap → Prop} [DecidablePred sees]
    (hsees : ((Heap.new settings).toOption.bind (Heap.script? script)).any
      (fun h => decide (sees h)) = true) :
    ∃ h : Heap, h.Reachable admits ∧ sees h := by
  cases hnew : Heap.new settings with
  | error fault => simp [hnew, Except.toOption] at hsees
  | ok start =>
      simp only [hnew, Except.toOption, Option.bind_some] at hsees
      cases hscript : start.script? script with
      | none => simp [hscript] at hsees
      | some h =>
          simp only [hscript, Option.any_some, decide_eq_true_eq] at hsees
          exact ⟨h, (Reachable.new hnew).script? hscript, hsees⟩

/-- Whether a step succeeds, and its result and its heap pass a test. -/
def concludes {α : Type} (step : HeapM α) (h : Heap) (test : α → Heap → Bool) : Bool :=
  match step h with
  | .ok a h' => test a h'
  | .error .. => false

/-- A step that concludes has an end that passes the test. -/
theorem exists_of_concludes {α : Type} {step : HeapM α} {test : α → Heap → Bool}
    (hok : concludes step h test = true) : ∃ a h', step h = .ok a h' ∧ test a h' = true := by
  unfold concludes at hok
  split at hok
  next a h' heq => exact ⟨a, h', heq, hok⟩
  next => cases hok

/-! ## A heap to try

A list that contains itself, an integer that nothing refers to, and little room besides. The
mark stack has one entry. -/

def crampedSettings : Settings :=
  { heapSize := 144, markStackSize := 1, loadFactor := ⟨0x3fe8000000000000⟩,
    minHashCapacity := 4 }

/-- A heap with two blocks. -/
def cramped : Heap where
  settings := crampedSettings
  slots := #[
    some ⟨⟨.list, .white, false, ⟨0, 24⟩⟩, .objects ⟨#[Value.ofSlot 0], 1⟩⟩,
    some ⟨⟨.integer, .white, false, ⟨24, 16⟩⟩, .integer 7⟩]
  freeSlots := []
  arena := ⟨[⟨40, 104⟩], 104⟩
  registers := #[]
  markStack := #[]
  phase := .idle
  liveObjects := 2
  collections := 0
  lastCycle := none

theorem new_crampedSettings : ∃ h, Heap.new crampedSettings = .ok h := by
  have hflaw : crampedSettings.flaw? = none := by decide +kernel
  rw [Heap.new, hflaw]
  exact ⟨_, rfl⟩

/-- The cramped heap is reached by three operations. -/
theorem reachable_cramped (admits : Value → Prop) : cramped.Reachable admits := by
  obtain ⟨h, hnew⟩ := new_crampedSettings
  obtain ⟨_, rfl⟩ := flaw?_of_new hnew
  -- the list is made around an absent item, which it then takes the place of
  refine .step [] (.seqSet (Value.ofSlot 0) 0 (Value.ofSlot 0))
    (.step [Value.ofSlot 0] (.newInteger 7)
      (.step [] (.newList #[Value.nil]) (.new hnew) ?_ rfl) ?_ rfl) ?_ rfl
  · simp [Operation.arguments]
  · intro v hv
    obtain rfl : v = Value.ofSlot 0 := by simpa [Operation.arguments] using hv
    exact usable_of_slot? rfl rfl
  · intro v hv
    obtain rfl : v = Value.ofSlot 0 := by simpa [Operation.arguments] using hv
    exact usable_of_slot? rfl rfl

/-- There is room for the dict of a module, once the integer is collected, but not for the
module. -/
theorem newModule_cramped : ∃ refusal h' block,
    (Operation.newModule Value.nil).perform [Value.ofSlot 0] cramped =
        .error (.refused refusal) h' ∧
      refusal.isOutOfMemory = true ∧ h'.block? 1 = some block ∧ block.header.kind = .dict := by
  refine ⟨_, _, _, by cbv, rfl, rfl, rfl⟩

theorem usable_newModule_cramped (admits : Value → Prop) :
    ∀ v ∈ [Value.ofSlot 0] ++ (Operation.newModule Value.nil).arguments,
      cramped.Usable admits v := by
  simp only [Operation.arguments, List.cons_append, List.nil_append, List.forall_mem_cons,
    usable_nil, true_and]
  exact ⟨usable_of_slot? rfl rfl, List.forall_mem_nil _⟩

/-! ## Collections -/

/-- A collection from any roots ends, keeps the blocks that are held as they were, and makes the
slots of all others free. -/
theorem Reachable.collect_exact [Digest] (hr : h.Reachable admits)
    (hroots : ∀ v ∈ roots, h.contains v = true) :
    ∃ report h', collect roots h = .ok report h' ∧
      (∀ slot, (h.block? slot).isSome = true →
        ((h'.block? slot).isSome = true ↔ h.Held roots slot)) ∧
      (∀ slot block, h'.block? slot = some block →
        h.block? slot = some block ∧ block.header.color = .white) ∧
      (∀ slot, (h.block? slot).isSome = true → h'.block? slot = none →
        h'.slots[slot]? = some none ∧ h'.freeSlots.count slot = 1) ∧
      h'.phase = .idle ∧ h'.markStack = #[] := by
  obtain ⟨report, h', hcollect, hcollected⟩ := collect_spec hr.sound hroots
  have hc := hcollected.consistent
  refine ⟨report, h', hcollect, fun slot hlive => ?_, fun slot block hblock => ?_,
    fun slot hlive hgone => ?_, hc.phase_eq, hc.markStack_eq⟩
  · obtain ⟨block, hblock⟩ := Option.isSome_iff_exists.mp hlive
    constructor
    · intro hkept
      obtain ⟨block', hblock'⟩ := Option.isSome_iff_exists.mp hkept
      exact ((hcollected.block?_iff slot block').mp hblock').2
    · intro hheld
      rw [(hcollected.block?_iff slot block).mpr ⟨hblock, hheld⟩]
      rfl
  · exact ⟨((hcollected.block?_iff slot block).mp hblock).1, (hc.proper slot block hblock).white⟩
  · have hfree : slot ∈ h'.freeSlots := by
      obtain ⟨block, hblock⟩ := Option.isSome_iff_exists.mp hlive
      refine (hc.wellFormed.mem_freeSlots slot).mpr ⟨?_, hgone⟩
      rw [hcollected.size_eq]
      exact lt_size_of_block? hblock
    exact ⟨(hc.mem_freeSlots slot).mp hfree, List.count_eq_one_of_mem hc.freeSlots_nodup hfree⟩

/-- Nothing but the block in slot 0 is held there. -/
theorem eq_zero_of_held_cramped {slot : Nat} (hheld : cramped.Held [Value.ofSlot 0] slot) :
    slot = 0 := by
  have hslot {n : Nat} (hn : (Value.ofSlot 0).slot? = some n) : n = 0 := (Option.some.inj hn).symm
  induction hheld with
  | start hv hn =>
      cases List.mem_singleton.mp hv
      exact hslot hn
  | register hv => exact absurd hv (by simp [cramped])
  | pinned hblock hpinned =>
      have hnone : ∀ content ∈ cramped.slots, ∀ block ∈ content, block.header.pinned = false := by
        decide
      have hmem := Array.mem_of_getElem? (block?_eq_some_iff.mp hblock)
      exact absurd hpinned (by simp [hnone _ hmem _ rfl])
  | edge _ hblock hv hn ih =>
      subst ih
      cases hblock
      cases List.mem_singleton.mp hv
      exact hslot hn

theorem collect_exact_cramped : ∃ report h',
    collect [Value.ofSlot 0] cramped = .ok report h' ∧ (h'.block? 0).isSome = true ∧
      h'.slots[1]? = some none ∧ h'.freeSlots.count 1 = 1 := by
  have hroots : ∀ v ∈ [Value.ofSlot 0], cramped.contains v = true := by decide
  obtain ⟨report, h', hcollect, hlive, _, hreclaimed, _⟩ :=
    (reachable_cramped fun _ => True).collect_exact hroots
  have hheld : cramped.Held [Value.ofSlot 0] 0 := .start List.mem_cons_self rfl
  have hgone : h'.block? 1 = none := Option.not_isSome_iff_eq_none.mp fun hkept =>
    absurd (eq_zero_of_held_cramped ((hlive 1 rfl).mp hkept)) (by decide)
  exact ⟨report, h', hcollect, (hlive 0 rfl).mpr hheld, hreclaimed 1 rfl hgone⟩

/-! ## The representation -/

/-- The representation invariant holds throughout, and so no operation and no read faults, unless
it decodes a malformed word that a caller has passed. A lookup along classes whose bases form a
cycle has no end. -/
theorem Reachable.keeps_representation [Digest] (hr : h.Reachable admits) :
    h.WellFormed ∧
      (∀ roots (op : Operation) fault h', (∀ v ∈ roots ++ op.arguments, h.Usable admits v) →
        op.perform roots h = .error (.fault fault) h' →
        ∃ v, admits v ∧
          (fault = .malformedTag v.tagBits v.word ∨ fault = .malformedException v.word)) ∧
      ∀ (query : Query) fault, (∀ v ∈ query.arguments, h.Usable admits v) →
        query.answer h = .error (.fault fault) →
        (∃ v, admits v ∧
          (fault = .malformedTag v.tagBits v.word ∨ fault = .malformedException v.word)) ∨
        fault = .endless ∧ ∃ object name, query = .getAttr object name := by
  refine ⟨hr.sound.consistent.wellFormed, fun roots op fault h' hargs hfault => ?_,
    fun query fault hargs hfault => ?_⟩
  · exact ((Operation.perform_yields hr.sound op hargs).excuse hfault).malformed
  · by_cases hattr : ∀ object name, query ≠ .getAttr object name
    · exact Or.inl ((Query.answer_gives hr.sound query hattr hargs).excuse hfault).malformed
    · push Not at hattr
      rcases (Query.answer_finds hr.sound query hargs).excuse hfault with hexcused | hendless
      · exact Or.inl hexcused.malformed
      · exact Or.inr ⟨hendless, hattr⟩

theorem keeps_representation_cramped : cramped.WellFormed :=
  (reachable_cramped fun _ => True).keeps_representation.1

/-! ## References -/

/-- Every value that a block or a register holds, that a read answers with, or that an operation
answers with, is inline or refers to a block. So is every value passed to an operation when it
returns, done or refused. -/
theorem Reachable.no_dangling [Digest] (hr : h.Reachable admits) :
    (∀ slot block, h.block? slot = some block → ∀ v ∈ block.body.edges, h.contains v = true) ∧
      (∀ v ∈ h.registers, h.contains v = true) ∧
      (∀ (query : Query) values, (∀ v ∈ query.arguments, h.Usable admits v) →
        query.answer h = .ok values → ∀ v ∈ values, h.contains v = true) ∧
      ∀ roots (op : Operation), (∀ v ∈ roots ++ op.arguments, h.Usable admits v) →
        (∀ result h', op.perform roots h = .ok result h' →
          (∀ v ∈ result, h'.contains v = true) ∧
            ∀ v ∈ roots ++ op.arguments, h'.contains v = true) ∧
        ∀ refusal h', op.perform roots h = .error (.refused refusal) h' →
          ∀ v ∈ roots ++ op.arguments, h'.contains v = true := by
  have hc := hr.sound.coherent
  refine ⟨fun slot block hblock v hv => (hc.edges_usable slot block hblock v hv).1,
    fun v hv => (hc.registers_usable v hv).1, fun query values hargs hanswer v hv => ?_,
    fun roots op hargs => ⟨fun result h' hok => ?_, fun refusal h' hrefused v hv => ?_⟩⟩
  · exact ((Query.answer_finds hr.sound query hargs).result hanswer v hv).1
  · have hdone := (Operation.perform_yields hr.sound op hargs).result hok
    refine ⟨fun v hv => (hdone.results_usable v (Option.mem_toList.mpr hv)).1, fun v hv => ?_⟩
    exact (hdone.kept v (hargs v hv) (holds_of_mem hv)).1
  · have hretreats := (Operation.perform_yields hr.sound op hargs).refusal hrefused
    exact (hretreats.usable (hargs v hv) (holds_of_mem hv)).1

theorem no_dangling_cramped : ∃ refusal h',
    (Operation.newModule Value.nil).perform [Value.ofSlot 0] cramped =
      .error (.refused refusal) h' ∧ h'.contains (Value.ofSlot 0) = true := by
  obtain ⟨refusal, h', _, hrefused, _⟩ := newModule_cramped
  obtain ⟨_, _, _, hperform⟩ := (reachable_cramped fun _ => True).no_dangling
  have hkept := (hperform _ _ (usable_newModule_cramped _)).2 refusal h' hrefused
  exact ⟨refusal, h', hrefused, hkept _ List.mem_cons_self⟩

/-! ## Refusals -/

/-- A refusal for another reason than memory changes nothing. One for lack of memory keeps the
registers and all that is held, the arguments included, and leaves no new block, except for one
dict that nothing holds where an instance or a module was to be made. -/
theorem Reachable.refusal_atomic [Digest] (hr : h.Reachable admits)
    (hargs : ∀ v ∈ roots ++ op.arguments, h.Usable admits v) {refusal : Refusal}
    (hrefused : op.perform roots h = .error (.refused refusal) h') :
    (refusal.isOutOfMemory = false → h' = h) ∧
      (refusal.isOutOfMemory = true → h'.registers = h.registers ∧
        (∀ slot block, h.block? slot = some block → h.Held (roots ++ op.arguments) slot →
          h'.block? slot = some block) ∧
        ∃ extra, ∀ slot block, h'.block? slot = some block → h.block? slot = some block ∨
          op.leavesDict = true ∧ slot = extra ∧ block.header.kind = .dict ∧
            ¬ h'.Held (roots ++ op.arguments) slot) := by
  have hretreats := (Operation.perform_yields hr.sound op hargs).refusal hrefused
  exact ⟨hretreats.same, fun _ => ⟨hretreats.registers_eq, hretreats.kept, hretreats.before⟩⟩

theorem refusal_atomic_cramped : ∃ refusal h',
    (Operation.newModule Value.nil).perform [Value.ofSlot 0] cramped =
        .error (.refused refusal) h' ∧
      h'.block? 0 = cramped.block? 0 ∧ (h'.block? 1).isSome = true ∧
      ¬ h'.Held [Value.ofSlot 0, Value.nil] 1 := by
  obtain ⟨refusal, h', block, hrefused, hmemory, hblock, hkind⟩ := newModule_cramped
  have hatomic := (reachable_cramped fun _ => True).refusal_atomic (usable_newModule_cramped _)
    hrefused
  obtain ⟨_, hkept, extra, hbefore⟩ := hatomic.2 hmemory
  refine ⟨refusal, h', hrefused, ?_, Option.isSome_of_eq_some hblock, ?_⟩
  · exact hkept 0 _ rfl (.start List.mem_cons_self rfl)
  · rcases hbefore 1 block hblock with hsame | ⟨_, _, _, hloose⟩
    · -- the slot held an integer before
      cases hsame
      cases hkind
    · exact hloose

end Heap

end ObjectHeap
