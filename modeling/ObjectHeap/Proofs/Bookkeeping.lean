import ObjectHeap.Proofs.Operations

/-! # Bookkeeping

Every slot has a ledger of the changes made to the table in it. An operation adds its changes to
the ledger of the table that it alters. A table that does not survive takes its ledger with it, and
a new one starts without changes. The tables of a heap are at all times what their ledgers say.
-/

namespace ObjectHeap

/-- The changes that an operation makes to the table that it alters. -/
def Operation.edits (h : Heap) : Operation → Ledger
  | .dictPut _ key value | .setAttr _ key value => [.put (h.fingerprint key) key value]
  | .setPut _ key => [.put (h.fingerprint key) key Value.nil]
  | .dictDel _ key | .setDel _ key => [.del (h.fingerprint key)]
  | .newFrozenSet items => items.map fun item => .put (h.fingerprint item) item Value.nil
  | _ => []

namespace Heap

/-- Whether the table in a slot is what a ledger says. A slot without a table has no ledger. -/
def Reflects (h : Heap) (slot : Nat) (ledger : Ledger) : Prop :=
  match h.table slot with
  | .ok t => t.Records h.fingerprint ledger
  | .error _ => ledger = []

open Classical in
/-- What is left of the ledger of a slot after a step. -/
noncomputable def inherited (h : Heap) (starts : List Value) (h' : Heap) (slot : Nat)
    (ledger : Ledger) : Ledger :=
  if h.Survives starts h' slot then ledger else []

/-- The ledger of a slot after a step that makes some changes to the table that it alters. -/
noncomputable def continued (h : Heap) (starts : List Value) (target : Target) (edits : Ledger)
    (h' : Heap) (slot : Nat) (ledger : Ledger) : Ledger :=
  h.inherited starts h' slot ledger ++ if target.altered? = some slot then edits else []

variable {admits : Value → Prop} {h h' : Heap} {starts : List Value} {target : Target} {slot : Nat}
  {ledger : Ledger} {t : ProbeTable}

theorem reflects_of_table (htable : h.table slot = .ok t) :
    h.Reflects slot ledger ↔ t.Records h.fingerprint ledger := by
  rw [Reflects, htable]

theorem Reflects.eq_nil (hr : h.Reflects slot ledger) (hblock : h.block? slot = none) :
    ledger = [] := by
  rw [Reflects] at hr
  split at hr
  next t htable =>
    obtain ⟨b, hb, _⟩ := exists_block_of_table htable
    rw [hblock] at hb
    cases hb
  next => exact hr

theorem inherited_of_survives (hsurvives : h.Survives starts h' slot) :
    h.inherited starts h' slot ledger = ledger := if_pos hsurvives

/-- Nothing is left of a ledger if no block survives. -/
theorem Reflects.inherited_eq_nil (hr : h.Reflects slot ledger)
    (hnew : ∀ b, h.block? slot = some b → ¬ h.Survives starts h' slot) :
    h.inherited starts h' slot ledger = [] := by
  by_cases hsurvives : h.Survives starts h' slot
  · rw [inherited_of_survives hsurvives]
    refine hr.eq_nil (Option.eq_none_iff_forall_ne_some.mpr fun b hb => ?_)
    exact hnew b hb hsurvives
  · exact if_neg hsurvives

variable [Digest]

/-! ## Tables that survive -/

omit [Digest] in
theorem Carries.table_eq (hcarries : h.Carries starts target h')
    (hquiet : target.altered? ≠ some slot) (htable : h.table slot = .ok t)
    (hsurvives : h.Survives starts h' slot) : h'.table slot = .ok t := by
  obtain ⟨b, hb, hbody⟩ := exists_block_of_table htable
  obtain ⟨b', hb', hallows⟩ := hcarries.carried slot b hb hsurvives
  exact Heap.table_eq hb' ((hallows.table_iff hquiet t).mpr hbody)

/-- A table that is not altered keeps its ledger. -/
theorem Carries.reflects (hcarries : h.Carries starts target h') (hc : h.Coherent admits)
    (hquiet : target.altered? ≠ some slot) (hr : h.Reflects slot ledger) :
    h'.Reflects slot (h.inherited starts h' slot ledger) := by
  by_cases hlives : ∃ b, h.block? slot = some b ∧ h.Survives starts h' slot
  · obtain ⟨b, hb, hsurvives⟩ := hlives
    rw [inherited_of_survives hsurvives]
    cases htable : h.table slot with
    | ok t =>
        rw [reflects_of_table htable] at hr
        rw [reflects_of_table (hcarries.table_eq hquiet htable hsurvives)]
        exact hr.congr fun hash key value hmem => hcarries.stored_print hc htable hsurvives hmem
    | error fault =>
        rw [Reflects, htable] at hr
        subst hr
        rw [Reflects]
        split
        next t htable' =>
          -- the block would have had the table before
          obtain ⟨b', hb', hbody'⟩ := exists_block_of_table htable'
          obtain ⟨found, hfound, hallows⟩ := hcarries.carried slot b hb hsurvives
          cases hb'.symm.trans hfound
          have hbody := (hallows.table_iff hquiet t).mp hbody'
          rw [Heap.table_eq hb hbody] at htable
          cases htable
        next => rfl
  · rw [hr.inherited_eq_nil fun b hb hsurvives => hlives ⟨b, hb, hsurvives⟩, Reflects]
    split
    next t htable =>
      obtain ⟨b', hb', hbody'⟩ := exists_block_of_table htable
      rcases hcarries.born slot b' hb' with hold | hblank | hfills
      · exact absurd hold hlives
      · exact ProbeTable.records_nil (hblank t hbody').toList_eq _
      · cases target with
        | filled v => exact absurd hfills hquiet
        | _ => exact hfills.elim
    next => rfl

/-- All ledgers go on if the one of the table that is altered does. -/
theorem Carries.reflects_continued (hcarries : h.Carries starts target h') (hc : h.Coherent admits)
    {edits : Ledger} (haltered : target.altered? = some slot → h.Reflects slot ledger →
      h'.Reflects slot (h.inherited starts h' slot ledger ++ edits))
    (hr : h.Reflects slot ledger) :
    h'.Reflects slot (h.continued starts target edits h' slot ledger) := by
  rw [continued]
  split
  next hslot => exact haltered hslot hr
  next hquiet =>
    rw [List.append_nil]
    exact hcarries.reflects hc hquiet hr

/-! ## Tables that are altered -/

theorem Coherent.distinct_table (hc : h.Coherent admits) (htable : h.table slot = .ok t) :
    (t.toList.map fun entry => h.fingerprint entry.2.1).Nodup := by
  obtain ⟨b, hb, hbody⟩ := exists_block_of_table htable
  exact (hc.keyed slot b t hb hbody).distinct

/-- A value that is stored goes into the ledger. -/
theorem Stores.reflects {key value : Value} (hstores : h.Stores slot key value h')
    (hcarries : h.Carries starts target h') (hc : h.Coherent admits)
    (hsurvives : h.Survives starts h' slot) (hkey : h.Usable admits key) (hstart : key ∈ starts)
    (hr : h.Reflects slot ledger) :
    h'.Reflects slot (ledger ++ [.put (h.fingerprint key) key value]) := by
  obtain ⟨hash, t, t', hhash, htable, htable', hbinds, _⟩ := hstores
  rw [reflects_of_table htable']
  rw [reflects_of_table htable] at hr
  have hstored {other : UInt64} {k old : Value} (hmem : (other, k, old) ∈ t.toList) :
      h'.fingerprint k = h.fingerprint k := hcarries.stored_print hc htable hsurvives hmem
  have hkeyprint : h'.fingerprint key = h.fingerprint key :=
    hcarries.fingerprint_eq hc hkey (fun s hs => Or.inr (.start hstart hs)) ⟨hash, hhash⟩
  refine (hr.put hbinds (hc.distinct_table htable)).congr fun other k old hmem => ?_
  cases hbinds with
  | added _ hperm =>
      rcases List.mem_cons.mp (hperm.mem_iff.mp hmem) with heq | hmem
      · cases heq
        exact hkeyprint
      · exact hstored hmem
  | replaced _ hbefore hafter =>
      rcases List.mem_cons.mp (hafter.mem_iff.mp hmem) with heq | hmem
      · cases heq
        exact hstored (hbefore.mem_iff.mpr (List.mem_cons_self ..))
      · exact hstored (hbefore.mem_iff.mpr (List.mem_cons_of_mem _ hmem))

/-- A key that is taken out is taken out of the ledger. -/
theorem Removes.reflects {key : Value} (hremoves : h.Removes slot key h')
    (hcarries : h.Carries starts target h') (hc : h.Coherent admits)
    (hsurvives : h.Survives starts h' slot) (hr : h.Reflects slot ledger) :
    h'.Reflects slot (ledger ++ [.del (h.fingerprint key)]) := by
  obtain ⟨hash, stored, value, t, t', htable, htable', hsame, hperm, _⟩ := hremoves
  rw [reflects_of_table htable', ← hsame]
  rw [reflects_of_table htable] at hr
  refine (hr.del hperm (hc.distinct_table htable)).congr fun other k old hmem => ?_
  exact hcarries.stored_print hc htable hsurvives (hperm.mem_iff.mpr (List.mem_cons_of_mem _ hmem))

/-- What a step does to the table that it alters, and the changes that it is noted with. -/
inductive Alters (admits : Value → Prop) (h : Heap) (starts : List Value) (slot : Nat)
    (h' : Heap) : Ledger → Prop where
  | put {key value : Value} : h.Usable admits key → key ∈ starts → h.Survives starts h' slot →
      h.Stores slot key value h' →
      Alters admits h starts slot h' [.put (h.fingerprint key) key value]
  | del {key : Value} : h.Survives starts h' slot → h.Removes slot key h' →
      Alters admits h starts slot h' [.del (h.fingerprint key)]
  | fill {items : List Value} {v : Value} : v.slot? = some slot →
      h.Assembled admits starts items v h' →
      Alters admits h starts slot h'
        (items.map fun item => .put (h.fingerprint item) item Value.nil)

/-- The ledger of the table that is altered goes on with the changes. -/
theorem Alters.reflects {edits : Ledger} (halters : h.Alters admits starts slot h' edits)
    (hcarries : h.Carries starts target h') (hc : h.Coherent admits)
    (hr : h.Reflects slot ledger) :
    h'.Reflects slot (h.inherited starts h' slot ledger ++ edits) := by
  cases halters with
  | put hkey hstart hsurvives hstores =>
      rw [inherited_of_survives hsurvives]
      exact hstores.reflects hcarries hc hsurvives hkey hstart hr
  | del hsurvives hremoves =>
      rw [inherited_of_survives hsurvives]
      exact hremoves.reflects hcarries hc hsurvives hr
  | fill hslot hmade =>
      obtain ⟨found, t, hfound, htable, hfresh, _, hrecords⟩ := hmade.table
      cases hslot.symm.trans hfound
      rw [hr.inherited_eq_nil hfresh, List.nil_append, reflects_of_table htable]
      exact hrecords

end Heap

/-! ## Operations -/

namespace Operation

open Heap

variable [Digest] {admits : Value → Prop} {h : Heap} {roots : List Value}

/-- The ledgers after an operation that has succeeded. -/
noncomputable def book (h : Heap) (roots : List Value) (op : Operation) (result : Option Value)
    (h' : Heap) (slot : Nat) (ledger : Ledger) : Ledger :=
  h.continued (roots ++ op.arguments) (op.target h result) (op.edits h) h' slot ledger

/-- An operation that succeeds alters the table of its target as it is noted, and no other. -/
theorem perform_alters (hs : h.Sound admits 0) (op : Operation)
    (hpassed : ∀ v ∈ roots ++ op.arguments, h.Usable admits v) :
    Yields admits (op.perform roots) h
      (fun result h' =>
        h.Completed admits (roots ++ op.arguments) (op.target h result) result.toList h' ∧
        ∀ slot, (op.target h result).altered? = some slot →
          h.Alters admits (roots ++ op.arguments) slot h' (op.edits h))
      (h.Retreats admits (roots ++ op.arguments) op.leavesDict) := by
  have hroots (v : Value) (hv : v ∈ roots) := hpassed v (List.mem_append_left _ hv)
  have hargs (v : Value) (hv : v ∈ op.arguments) := hpassed v (List.mem_append_right _ hv)
  have hyields := perform_yields hs op hpassed
  cases op with
  | dictPut dict key value =>
      have hkey := hargs key (by simp [arguments])
      refine Yields.bind (Yields.mono (dictPut_stores hs hroots (hargs dict (by simp [arguments]))
        hkey (hargs value (by simp [arguments]))) (fun _ h' hdone => ?_)
        fun _ _ hd => hd.retreats false) fun _ _ hboth => Yields.pure hboth
      obtain ⟨hdone, found, hfound, hstores⟩ := hdone
      refine ⟨hdone, fun slot hslot => ?_⟩
      cases hfound.symm.trans hslot
      exact .put hkey (by simp [arguments]) (Or.inr (.start (by simp [arguments]) hfound)) hstores
  | setPut s key =>
      have hkey := hargs key (by simp [arguments])
      refine Yields.bind (Yields.mono (setPut_stores hs hroots (hargs s (by simp [arguments])) hkey)
        (fun _ h' hdone => ?_) fun _ _ hd => hd.retreats false) fun _ _ hboth => Yields.pure hboth
      obtain ⟨hdone, found, hfound, hstores⟩ := hdone
      refine ⟨hdone, fun slot hslot => ?_⟩
      cases hfound.symm.trans hslot
      exact .put hkey (by simp [arguments]) (Or.inr (.start (by simp [arguments]) hfound)) hstores
  | setAttr object name value =>
      have hname := hargs name (by simp [arguments])
      refine Yields.bind (Yields.mono (setAttr_stores hs hroots (hargs object (by simp [arguments]))
        hname (hargs value (by simp [arguments]))) (fun _ h' hdone => ?_)
        fun _ _ hd => hd.retreats false) fun _ _ hboth => Yields.pure hboth
      obtain ⟨hdone, dict, found, htarget, hfound, hheld, hstores⟩ := hdone
      refine ⟨hdone, fun slot hslot => ?_⟩
      rw [target, htarget] at hslot
      cases hfound.symm.trans hslot
      exact .put hname (by simp [arguments]) (Or.inr hheld) hstores
  | dictDel dict key =>
      refine Yields.map (Yields.mono (dictDel_removes hs (hargs dict (by simp [arguments]))
        (hargs key (by simp [arguments]))) (fun _ h' hdone => ?_) fun _ _ hd => hd.retreats false)
      obtain ⟨hdone, found, hfound, hremoves⟩ := hdone
      refine ⟨hdone, fun slot hslot => ?_⟩
      cases hfound.symm.trans hslot
      exact .del (Or.inr (.start (by simp [arguments]) hfound)) hremoves
  | setDel s key =>
      refine Yields.bind (Yields.mono (setDel_removes hs (hargs s (by simp [arguments]))
        (hargs key (by simp [arguments]))) (fun _ h' hdone => ?_) fun _ _ hd => hd.retreats false)
        fun _ _ hboth => Yields.pure hboth
      obtain ⟨hdone, found, hfound, hremoves⟩ := hdone
      refine ⟨hdone, fun slot hslot => ?_⟩
      cases hfound.symm.trans hslot
      exact .del (Or.inr (.start (by simp [arguments]) hfound)) hremoves
  | newFrozenSet items =>
      exact Yields.map (Yields.mono (newFrozenSet_yields hs hroots hargs)
        (fun _ _ hmade => ⟨hmade.completed, fun _ hslot => .fill hslot hmade⟩)
        fun _ _ hd => hd.retreats false)
  | _ =>
      exact hyields.mono
        (fun _ _ hdone =>
          ⟨hdone, fun slot haltered => absurd haltered (Option.some_ne_none slot).symm⟩)
        fun _ _ hretreats => hretreats

/-- Operations keep the ledgers, be they done or refused. -/
theorem perform_books (hs : h.Sound admits 0) (op : Operation)
    (hpassed : ∀ v ∈ roots ++ op.arguments, h.Usable admits v) :
    Yields admits (op.perform roots) h
      (fun result h' => ∀ slot ledger, h.Reflects slot ledger →
        h'.Reflects slot (op.book h roots result h' slot ledger))
      (fun _ h' => ∀ slot ledger, h.Reflects slot ledger →
        h'.Reflects slot (h.inherited (roots ++ op.arguments) h' slot ledger)) := by
  have hc := hs.coherent
  refine (perform_alters hs op hpassed).mono (fun result h' hdone slot ledger hr => ?_)
    fun _ h' hretreats slot ledger hr => ?_
  · obtain ⟨hdone, halters⟩ := hdone
    exact hdone.carries.reflects_continued hc
      (fun hslot => (halters slot hslot).reflects hdone.carries hc) hr
  · exact hretreats.carries.reflects hc (Option.some_ne_none slot).symm hr

end Operation

end ObjectHeap
