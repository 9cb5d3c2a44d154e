import ObjectHeap.Proofs.Occupancy
import ObjectHeap.Proofs.Rounding

/-! # Growth of tables

Tombstones count towards the load of a table, but when it has to make room it gets the slots that
its entries ask for, and keeps those it has if these are enough. So a table grows with its entries
only. Along a run it never loses slots. It has those that it was made with, or those that some
number of entries asks for which it has had. Since more entries never ask for fewer slots, a table
that is filled and emptied over and over stays as large as its entries need at most.
-/

namespace ObjectHeap

namespace ProbeTable

/-! ## Histories of a table

A history lists the tables that follow each other from step to step, the latest first. -/

variable {s : Settings} {first t : ProbeTable} {tables earlier : List ProbeTable}

theorem Tends.capacity_le {t' : ProbeTable} (h : t.Tends s t') : t.capacity ≤ t'.capacity := by
  rcases h.grows with heq | ⟨hlt, _⟩
  · exact Nat.le_of_eq heq.symm
  · exact Nat.le_of_lt hlt

theorem pairwise_capacity_le (hchain : tables.IsChain fun later earlier => earlier.Tends s later) :
    tables.Pairwise fun later earlier => earlier.capacity ≤ later.capacity := by
  have hcapacities : (tables.map capacity).IsChain (· ≥ ·) :=
    List.isChain_map_of_isChain capacity (fun _ _ htends => htends.capacity_le) hchain
  exact List.pairwise_map.mp hcapacities.pairwise

/-- At the end of a history, a table has the slots that it had at the start, or those that a
number of entries asks for which it has had. -/
theorem capacity_cases
    (hchain : (t :: earlier).IsChain fun later earlier => earlier.Tends s later)
    (hfirst : (t :: earlier).getLast? = some first) :
    t.capacity = first.capacity ∨ ∃ k, (∃ u ∈ t :: earlier, k ≤ u.size) ∧
      capacityFor? k s.loadFactor s.minHashCapacity = some t.capacity := by
  induction earlier generalizing t with
  | nil =>
      cases hfirst
      exact Or.inl rfl
  | cons u earlier ih =>
      obtain ⟨htends, hchain⟩ := List.isChain_cons_cons.mp hchain
      rcases htends.grows with heq | ⟨_, hcapacity⟩
      · rw [heq]
        refine (ih hchain (by simpa using hfirst)).imp_right fun ⟨k, ⟨w, hw, hk⟩, hcapacity⟩ => ?_
        exact ⟨k, ⟨w, List.mem_cons_of_mem _ hw, hk⟩, hcapacity⟩
      · exact Or.inr ⟨t.size, ⟨t, List.mem_cons_self, Nat.le_refl _⟩, hcapacity⟩

/-- A table that has not had more than some number of entries has no more slots than these ask
for, unless it was made with more. -/
theorem capacity_le_max (hload : s.loadFactor.Fraction)
    (hchain : (t :: earlier).IsChain fun later earlier => earlier.Tends s later)
    (hfirst : (t :: earlier).getLast? = some first) {n slots : Nat}
    (hsizes : ∀ u ∈ t :: earlier, u.size ≤ n)
    (hslots : capacityFor? n s.loadFactor s.minHashCapacity = some slots) :
    t.capacity ≤ max first.capacity slots := by
  rcases capacity_cases hchain hfirst with heq | ⟨k, ⟨u, hu, hk⟩, hcapacity⟩
  · exact Nat.le_trans (Nat.le_of_eq heq) (Nat.le_max_left ..)
  · obtain ⟨found, hfound, hle⟩ :=
      capacityFor?_mono hload (Nat.le_trans hk (hsizes u hu)) hslots
    cases hcapacity.symm.trans hfound
    exact Nat.le_trans hle (Nat.le_max_right ..)

theorem keepsValues_eq_first
    (hchain : (t :: earlier).IsChain fun later earlier => earlier.Tends s later)
    (hfirst : (t :: earlier).getLast? = some first) : t.keepsValues = first.keepsValues := by
  induction earlier generalizing t with
  | nil =>
      cases hfirst
      rfl
  | cons u earlier ih =>
      obtain ⟨htends, hchain⟩ := List.isChain_cons_cons.mp hchain
      rw [htends.keepsValues_eq, ih hchain (by simpa using hfirst)]

theorem blockSize_le_blank {slots : Nat} (hcapacity : t.capacity ≤ slots) :
    (Body.hash t).blockSize ≤ (Body.hash (blank slots t.keepsValues)).blockSize := by
  have hentries : Layout.entrySize t.keepsValues * t.capacity ≤
      Layout.entrySize t.keepsValues * slots := Nat.mul_le_mul_left _ hcapacity
  have hkeeps : (blank slots t.keepsValues).keepsValues = t.keepsValues := rfl
  simp only [Body.blockSize, Body.payloadSize, Layout.block, Layout.roundUp, capacity_blank, hkeeps]
  omega

end ProbeTable

namespace Heap

/-! ## Runs that keep a table -/

/-- The heaps of runs that keep the table in a slot, with the tables that have been there since
it was made, the latest first. -/
inductive Lineage [Digest] (admits : Value → Prop) (slot : Nat) (first : ProbeTable) :
    Heap → List ProbeTable → Prop where
  | made {h h' : Heap} (roots : List Value) (op : Operation) : h.Reachable admits →
      (∀ v ∈ roots ++ op.arguments, h.Usable admits v) → op.after? roots h = some h' →
      (∀ b, h.block? slot = some b → ¬ h.Survives (roots ++ op.arguments) h' slot) →
      h'.table slot = .ok first → Lineage admits slot first h' [first]
  | kept {h h' : Heap} {t : ProbeTable} {tables : List ProbeTable} (roots : List Value)
      (op : Operation) : Lineage admits slot first h tables →
      (∀ v ∈ roots ++ op.arguments, h.Usable admits v) → op.after? roots h = some h' →
      h.Survives (roots ++ op.arguments) h' slot → h'.table slot = .ok t →
      Lineage admits slot first h' (t :: tables)

section Digest

variable [Digest] {admits : Value → Prop} {h h' : Heap} {slot : Nat} {first t : ProbeTable}
  {tables : List ProbeTable}

theorem Lineage.reachable (hl : Lineage admits slot first h tables) : h.Reachable admits := by
  induction hl with
  | made roots op hr hargs hafter => exact hr.step roots op hargs hafter
  | kept roots op _ hargs hafter _ _ ih => exact ih.step roots op hargs hafter

theorem Lineage.head (hl : Lineage admits slot first h tables) :
    ∃ t earlier, tables = t :: earlier ∧ h.table slot = .ok t := by
  cases hl with
  | made _ _ _ _ _ _ htable => exact ⟨first, [], rfl, htable⟩
  | kept _ _ _ _ _ _ htable => exact ⟨_, _, rfl, htable⟩

theorem Lineage.getLast? (hl : Lineage admits slot first h tables) :
    tables.getLast? = some first := by
  induction hl with
  | made => rfl
  | kept _ _ hl _ _ _ _ ih =>
      obtain ⟨t, earlier, rfl, _⟩ := hl.head
      simpa using ih

/-- Each step makes the table of a run tend towards the next one. -/
theorem Lineage.isChain (hl : Lineage admits slot first h tables) :
    tables.IsChain fun later earlier => earlier.Tends h.settings later := by
  induction hl with
  | made => exact List.IsChain.singleton _
  | kept roots op hl hargs hafter hsurvives htable ih =>
      obtain ⟨t, earlier, rfl, hbefore⟩ := hl.head
      have hadvances := advances_after hl.reachable.sound hargs hafter
      rw [hadvances.settings_eq]
      refine List.isChain_cons_cons.mpr ⟨?_, ih⟩
      rcases hadvances.table slot _ htable with ⟨found, hfound, _, htends⟩ | ⟨hnew, _⟩
      · cases hbefore.symm.trans hfound
        exact htends
      · -- what has survived is not new
        obtain ⟨b, hb, _⟩ := exists_block_of_table hbefore
        exact absurd hsurvives (hnew b hb)

/-- Every table of a run has a history. -/
theorem Reachable.exists_lineage (hr : h.Reachable admits) (htable : h.table slot = .ok t) :
    ∃ first earlier, Lineage admits slot first h (t :: earlier) := by
  induction hr generalizing t with
  | new hnew =>
      obtain ⟨_, rfl⟩ := flaw?_of_new hnew
      obtain ⟨b, hb, _⟩ := exists_block_of_table htable
      simp [block?] at hb
  | step roots op hr hargs hafter ih =>
      rcases (advances_after hr.sound hargs hafter).table slot t htable with
        ⟨before, hbefore, hsurvives, _⟩ | ⟨hnew, _⟩
      · obtain ⟨first, earlier, hl⟩ := ih hbefore
        exact ⟨first, before :: earlier, hl.kept roots op hargs hafter hsurvives htable⟩
      · exact ⟨t, [], .made roots op hr hargs hafter hnew htable⟩

/-- The heap after some operations that collect nothing, each with its roots, and the tables that
were in a slot after each of them, the latest first and before those given. -/
def tables? (slot : Nat) :
    List (List Value × Operation) → Heap → List ProbeTable → Option (Heap × List ProbeTable)
  | [], h, tables => some (h, tables)
  | (roots, op) :: script, h, tables =>
      if (roots ++ op.arguments).all h.passes then
        (op.after? roots h).bind fun h' =>
          if h'.collections = h.collections then
            (h'.table slot).toOption.bind fun t => tables? slot script h' (t :: tables)
          else none
      else none

theorem Lineage.tables? {script : List (List Value × Operation)} {tables' : List ProbeTable}
    (hl : Lineage admits slot first h tables)
    (hscript : Heap.tables? slot script h tables = some (h', tables')) :
    Lineage admits slot first h' tables' := by
  induction script generalizing h tables with
  | nil =>
      cases hscript
      exact hl
  | cons step script ih =>
      obtain ⟨roots, op⟩ := step
      rw [Heap.tables?] at hscript
      split at hscript
      next hall =>
        obtain ⟨mid, hafter, hscript⟩ := Option.bind_eq_some_iff.mp hscript
        split at hscript
        next hcollections =>
          obtain ⟨t, htable, hscript⟩ := Option.bind_eq_some_iff.mp hscript
          have hargs : ∀ v ∈ roots ++ op.arguments, h.Usable admits v :=
            fun v hv => usable_of_passes (List.all_eq_true.mp hall v hv)
          exact ih (hl.kept roots op hargs hafter (Or.inl hcollections)
            (eq_ok_of_toOption htable)) hscript
        next => cases hscript
      next => cases hscript

/-- How four entries of a dict are put, and then replaced one at a time. -/
def churnScript : List (List Value × Operation) :=
  let dict := Value.ofSlot 0
  [([], .dictPut dict (small 1) Value.nil), ([], .dictPut dict (small 2) Value.nil),
   ([], .dictPut dict (small 3) Value.nil), ([], .dictPut dict (small 4) Value.nil),
   ([], .dictDel dict (small 1)), ([], .dictPut dict (small 5) Value.nil),
   ([], .dictDel dict (small 2)), ([], .dictPut dict (small 6) Value.nil),
   ([], .dictDel dict (small 3)), ([], .dictPut dict (small 7) Value.nil),
   ([], .dictDel dict (small 4)), ([], .dictPut dict (small 8) Value.nil)]

/-- Tombstones do not make tables grow. Every table of a run has a history, and along it the
slots never become fewer. They are those that the table was made with, or those that a number of
entries asks for which it has had. If it has not had more than some number of entries, then its
block is no larger than that of a table with the slots that these ask for, or that it was made
with. -/
theorem Reachable.growth_bounded (hr : h.Reachable admits) {b : Block}
    (hb : h.block? slot = some b) (hbody : b.body = .hash t) :
    (∃ first earlier, Lineage admits slot first h (t :: earlier)) ∧
    ∀ first earlier, Lineage admits slot first h (t :: earlier) →
      ((t :: earlier).Pairwise fun later earlier => earlier.capacity ≤ later.capacity) ∧
      (t.capacity = first.capacity ∨ ∃ k, (∃ u ∈ t :: earlier, k ≤ u.size) ∧
        ProbeTable.capacityFor? k h.settings.loadFactor h.settings.minHashCapacity =
          some t.capacity) ∧
      ∀ n slots, (∀ u ∈ t :: earlier, u.size ≤ n) →
        ProbeTable.capacityFor? n h.settings.loadFactor h.settings.minHashCapacity = some slots →
        t.capacity ≤ max first.capacity slots ∧
          b.header.size ≤
            (Body.hash (.blank (max first.capacity slots) first.keepsValues)).blockSize := by
  refine ⟨hr.exists_lineage (table_eq hb hbody), fun first earlier hl => ?_⟩
  have hchain := hl.isChain
  have hfirst := hl.getLast?
  have hload := Settings.fraction_of_flaw? hr.sound.consistent.settings_ok
  refine ⟨ProbeTable.pairwise_capacity_le hchain, ProbeTable.capacity_cases hchain hfirst,
    fun n slots hsizes hslots => ?_⟩
  have hcapacity := ProbeTable.capacity_le_max hload hchain hfirst hsizes hslots
  refine ⟨hcapacity, ?_⟩
  rw [(hr.sound.consistent.proper slot b hb).size_eq, hbody,
    ← ProbeTable.keepsValues_eq_first hchain hfirst]
  exact ProbeTable.blockSize_le_blank hcapacity

end Digest

/-- The fourth entry makes the dict grow to eight slots. Later three tombstones fill it up to its
load, and it is rehashed with the slots that it has. -/
theorem growth_bounded_churn : ∃ (h : Heap) (b : Block) (t first : ProbeTable)
    (earlier : List ProbeTable), h.block? 0 = some b ∧ b.body = .hash t ∧
      Lineage (fun _ => False) 0 first h (t :: earlier) ∧
      ((t :: earlier).map fun u => (u.size, u.tombstones, u.capacity)) =
        [(4, 1, 8), (3, 1, 8), (4, 0, 8), (3, 3, 8), (4, 2, 8), (3, 2, 8), (4, 1, 8), (3, 1, 8),
          (4, 0, 8), (3, 0, 4), (2, 0, 4), (1, 0, 4), (0, 0, 4)] ∧
      t.capacity ≤ max first.capacity 8 ∧
      b.header.size ≤ (Body.hash (.blank (max first.capacity 8) first.keepsValues)).blockSize := by
  have hrun : ((Heap.new { crampedSettings with heapSize := 1024 }).toOption.bind fun start =>
      ((Operation.newDict 0).after? [] start).bind fun made =>
        (made.table 0).toOption.bind fun first =>
          (tables? 0 churnScript made [first]).filter fun run =>
            (run.2.map fun u => (u.size, u.tombstones, u.capacity)) =
              [(4, 1, 8), (3, 1, 8), (4, 0, 8), (3, 3, 8), (4, 2, 8), (3, 2, 8), (4, 1, 8),
                (3, 1, 8), (4, 0, 8), (3, 0, 4), (2, 0, 4), (1, 0, 4), (0, 0, 4)] ∧
            (∀ u ∈ run.2, u.size ≤ 4) ∧
            ProbeTable.capacityFor? 4 run.1.settings.loadFactor run.1.settings.minHashCapacity =
              some 8).isSome = true := by
    decide +kernel
  obtain ⟨⟨h, tables⟩, hrun⟩ := Option.isSome_iff_exists.mp hrun
  obtain ⟨start, hnew, hrun⟩ := Option.bind_eq_some_iff.mp hrun
  obtain ⟨made, hmade, hrun⟩ := Option.bind_eq_some_iff.mp hrun
  obtain ⟨first, hfirst, hrun⟩ := Option.bind_eq_some_iff.mp hrun
  obtain ⟨hscript, hseen⟩ := Option.filter_eq_some_iff.mp hrun
  obtain ⟨hcounts, hsizes, hslots⟩ := of_decide_eq_true hseen
  have hnew := eq_ok_of_toOption hnew
  have hempty (b : Block) : start.block? 0 ≠ some b := by
    obtain ⟨_, rfl⟩ := flaw?_of_new hnew
    simp [block?]
  have hl : Lineage (fun _ => False) 0 first h tables :=
    (Lineage.made [] (.newDict 0) (.new hnew) (by simp [Operation.arguments]) hmade
      (fun b hb => absurd hb (hempty b)) (eq_ok_of_toOption hfirst)).tables? hscript
  obtain ⟨t, earlier, rfl, htable⟩ := hl.head
  obtain ⟨b, hb, hbody⟩ := exists_block_of_table htable
  obtain ⟨_, _, hbounded⟩ := (hl.reachable.growth_bounded hb hbody).2 first earlier hl
  obtain ⟨hcapacity, hsize⟩ := hbounded 4 8 hsizes hslots
  exact ⟨h, b, t, first, earlier, hb, hbody, hl, hcounts, hcapacity, hsize⟩

end Heap

end ObjectHeap
