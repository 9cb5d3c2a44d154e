import Mathlib.Data.Finset.Card
import Mathlib.Data.Finset.Filter
import ObjectHeap.Proofs.Probing

/-! # Ledgers

A ledger lists the changes made to a table, oldest first, with the fingerprints of their keys.
What a table has under a fingerprint is settled by the entries that were stored since the last
removal: the key is that of the first, and the value that of the last.
-/

namespace ObjectHeap

/-- A change of a table, with the fingerprint of its key. -/
inductive Change where
  | put (print : Nat) (key value : Value)
  | del (print : Nat)

/-- The changes of a table, oldest first. -/
abbrev Ledger := List Change

namespace Change

/-- The fingerprint of the key. -/
def print : Change → Nat
  | .put print _ _ => print
  | .del print => print

/-- The entries under a fingerprint after a change. -/
def extend (print : Nat) (entries : List (Value × Value)) : Change → List (Value × Value)
  | .put other key value => if other = print then entries ++ [(key, value)] else entries
  | .del other => if other = print then [] else entries

end Change

namespace Ledger

/-- The entries stored under a fingerprint since it was last removed, oldest first. -/
def standing (ledger : Ledger) (print : Nat) : List (Value × Value) :=
  ledger.foldl (Change.extend print) []

/-- The key that was stored first and the value that was stored last. -/
def binding? (ledger : Ledger) (print : Nat) : Option (Value × Value) :=
  (ledger.standing print).head?.bind fun first =>
    (ledger.standing print).getLast?.map fun last => (first.1, last.2)

/-- The fingerprints with entries. -/
def prints (ledger : Ledger) : Finset Nat :=
  (ledger.map Change.print).toFinset.filter fun print => ledger.standing print ≠ []

variable {ledger : Ledger} {print : Nat}

/-- The last change comes last in what stands for its key. -/
theorem standing_concat (ledger : Ledger) (change : Change) (print : Nat) :
    standing (ledger ++ [change]) print = change.extend print (ledger.standing print) := by
  simp [standing]

theorem binding?_eq_none_iff : ledger.binding? print = none ↔ ledger.standing print = [] := by
  cases hstanding : ledger.standing print with
  | nil => simp [binding?, hstanding]
  | cons first rest => simp [binding?, hstanding, List.getLast?_cons]

theorem map_fst_binding? (ledger : Ledger) (print : Nat) :
    (ledger.binding? print).map Prod.fst = (ledger.standing print).head?.map Prod.fst := by
  cases hstanding : ledger.standing print with
  | nil => simp [binding?, hstanding]
  | cons first rest => simp [binding?, hstanding, List.getLast?_cons]

theorem map_snd_binding? (ledger : Ledger) (print : Nat) :
    (ledger.binding? print).map Prod.snd = (ledger.standing print).getLast?.map Prod.snd := by
  cases hstanding : ledger.standing print with
  | nil => simp [binding?, hstanding]
  | cons first rest => simp [binding?, hstanding, List.getLast?_cons]

@[simp] theorem binding?_nil (print : Nat) : binding? [] print = none := rfl

/-- A first key stays, and its value is replaced. -/
theorem binding?_put (ledger : Ledger) (other : Nat) (key value : Value) (print : Nat) :
    binding? (ledger ++ [.put other key value]) print =
      if other = print then some (((ledger.binding? print).map Prod.fst).getD key, value)
      else ledger.binding? print := by
  rw [map_fst_binding?, binding?, standing_concat, Change.extend]
  split
  next =>
    cases ledger.standing print with
    | nil => rfl
    | cons first rest => simp [List.getLast?_cons]
  next => rfl

/-- A deletion takes away the binding of its key and no other. -/
theorem binding?_del (ledger : Ledger) (other print : Nat) :
    binding? (ledger ++ [.del other]) print =
      if other = print then none else ledger.binding? print := by
  rw [binding?, standing_concat, Change.extend]
  split
  next => rfl
  next => rfl

theorem mem_prints : print ∈ ledger.prints ↔ ledger.standing print ≠ [] := by
  rw [prints, Finset.mem_filter, and_iff_right_iff_imp, List.mem_toFinset]
  -- a fingerprint that no change has is never stored
  intro hstanding
  by_contra hmem
  refine hstanding ?_
  induction ledger using List.reverseRecOn with
  | nil => rfl
  | append_singleton ledger change ih =>
      rw [List.map_append, List.mem_append, not_or] at hmem
      rw [standing_concat] at hstanding ⊢
      have hne : change.print ≠ print := fun heq => hmem.2 (by simp [heq])
      have hsame : change.extend print (standing ledger print) = standing ledger print := by
        cases change with
        | put => exact if_neg hne
        | del => exact if_neg hne
      rw [hsame] at hstanding ⊢
      exact ih hstanding hmem.1

end Ledger

namespace ProbeTable

variable {t t' : ProbeTable} {print : Value → Nat} {hash : UInt64} {key value : Value}
  {ledger : Ledger}

/-- What happens to the entries of a table when a value is stored under a key: an entry is added
for a new key, and the value of an equal one is replaced. -/
inductive Binds (print : Value → Nat) (hash : UInt64) (key value : Value) (t t' : ProbeTable) :
    Prop where
  | added : (∀ entry ∈ t.toList, print entry.2.1 ≠ print key) →
      t'.toList.Perm ((hash, key, value) :: t.toList) → Binds print hash key value t t'
  | replaced {stored old : Value} {rest : List (UInt64 × Value × Value)} :
      print stored = print key → t.toList.Perm ((hash, stored, old) :: rest) →
      t'.toList.Perm ((hash, stored, value) :: rest) → Binds print hash key value t t'

/-- Keys stay apart when one is bound. -/
theorem Binds.nodup (h : Binds print hash key value t t')
    (hnodup : (t.toList.map fun entry => print entry.2.1).Nodup) :
    (t'.toList.map fun entry => print entry.2.1).Nodup := by
  cases h with
  | added hfresh hperm =>
      rw [(hperm.map _).nodup_iff, List.map_cons, List.nodup_cons]
      refine ⟨fun hmem => ?_, hnodup⟩
      obtain ⟨entry, hentry, hsame⟩ := List.mem_map.mp hmem
      exact hfresh entry hentry hsame
  | replaced _ hbefore hafter =>
      rw [(hbefore.map _).nodup_iff] at hnodup
      rw [(hafter.map _).nodup_iff]
      exact hnodup

/-- Whether the entries of a table are those that a ledger leaves. -/
def Records (t : ProbeTable) (print : Value → Nat) (ledger : Ledger) : Prop :=
  ∀ number key value, ledger.binding? number = some (key, value) ↔
    print key = number ∧ ∃ hash, (hash, key, value) ∈ t.toList

theorem records_nil (h : t.toList = []) (print : Value → Nat) : t.Records print [] := by
  simp [Records, h]

/-- The fingerprints of the stored keys are all that matters. -/
theorem Records.congr {print' : Value → Nat} (h : t.Records print ledger)
    (hsame : ∀ hash key value, (hash, key, value) ∈ t.toList → print' key = print key) :
    t.Records print' ledger := by
  intro number key value
  rw [h number key value]
  refine and_congr_left fun ⟨hash, hmem⟩ => ?_
  rw [hsame hash key value hmem]

theorem Records.binding?_of_mem (h : t.Records print ledger)
    (hmem : (hash, key, value) ∈ t.toList) : ledger.binding? (print key) = some (key, value) :=
  (h _ key value).mpr ⟨rfl, hash, hmem⟩

theorem Records.binding?_eq_none (h : t.Records print ledger) {number : Nat}
    (hlacks : ∀ entry ∈ t.toList, print entry.2.1 ≠ number) : ledger.binding? number = none := by
  rw [Option.eq_none_iff_forall_ne_some]
  rintro ⟨key, value⟩ hentry
  obtain ⟨hprint, hash, hmem⟩ := (h number key value).mp hentry
  exact hlacks _ hmem hprint

/-- Only one key has the fingerprint of the first of some entries. -/
theorem print_ne_of_nodup {stored old : Value} {rest : List (UInt64 × Value × Value)}
    (hnodup : (t.toList.map fun entry => print entry.2.1).Nodup)
    (hperm : t.toList.Perm ((hash, stored, old) :: rest)) :
    ∀ entry ∈ rest, print entry.2.1 ≠ print stored := by
  rw [(hperm.map _).nodup_iff, List.map_cons, List.nodup_cons] at hnodup
  exact fun entry hentry hsame => hnodup.1 (List.mem_map.mpr ⟨entry, hentry, hsame⟩)

/-- What some entries bind, if one of them is known. -/
theorem exists_mem_iff_of_perm {entries rest : List (UInt64 × Value × Value)} {stored old : Value}
    (hperm : entries.Perm ((hash, stored, old) :: rest)) (k v : Value) :
    (∃ hash, (hash, k, v) ∈ entries) ↔
      (k = stored ∧ v = old) ∨ ∃ hash, (hash, k, v) ∈ rest := by
  simp only [hperm.mem_iff, List.mem_cons, Prod.mk.injEq, exists_or, exists_eq_left]

/-- A table that binds a key records the ledger with that change. -/
theorem Records.put (h : t.Records print ledger) (hbinds : Binds print hash key value t t')
    (hnodup : (t.toList.map fun entry => print entry.2.1).Nodup) :
    t'.Records print (ledger ++ [.put (print key) key value]) := by
  intro number k v
  rw [Ledger.binding?_put]
  cases hbinds with
  | added hfresh hperm =>
      rw [exists_mem_iff_of_perm hperm]
      split
      next heq =>
        subst heq
        rw [h.binding?_eq_none hfresh]
        constructor
        · rintro ⟨⟩
          exact ⟨rfl, Or.inl ⟨rfl, rfl⟩⟩
        · rintro ⟨hprint, ⟨rfl, rfl⟩ | ⟨hash, hold⟩⟩
          · rfl
          · exact absurd hprint (hfresh _ hold)
      next hne =>
        rw [h number k v]
        refine and_congr_right fun hprint => ⟨Or.inr, fun hnew => hnew.resolve_left ?_⟩
        rintro ⟨rfl, rfl⟩
        exact hne hprint
  | @replaced stored old rest hsame hbefore hafter =>
      have hother := print_ne_of_nodup hnodup hbefore
      have hentry : ledger.binding? (print stored) = some (stored, old) :=
        h.binding?_of_mem (hbefore.mem_iff.mpr (List.mem_cons_self ..))
      rw [← hsame]
      rw [exists_mem_iff_of_perm hafter]
      split
      next heq =>
        subst heq
        rw [hentry]
        constructor
        · rintro ⟨⟩
          exact ⟨rfl, Or.inl ⟨rfl, rfl⟩⟩
        · rintro ⟨hprint, ⟨rfl, rfl⟩ | ⟨hash, hold⟩⟩
          · rfl
          · exact absurd hprint (hother _ hold)
      next hne =>
        rw [h number k v, exists_mem_iff_of_perm hbefore]
        refine and_congr_right fun hprint => or_congr_left ?_
        exact iff_of_false (fun ⟨heq, _⟩ => hne (heq ▸ hprint)) fun ⟨heq, _⟩ => hne (heq ▸ hprint)

/-- A table that drops an entry records the ledger with that deletion. -/
theorem Records.del {stored old : Value} (h : t.Records print ledger)
    (hperm : t.toList.Perm ((hash, stored, old) :: t'.toList))
    (hnodup : (t.toList.map fun entry => print entry.2.1).Nodup) :
    t'.Records print (ledger ++ [.del (print stored)]) := by
  have hother := print_ne_of_nodup hnodup hperm
  intro number k v
  rw [Ledger.binding?_del]
  split
  next heq =>
    subst heq
    refine iff_of_false (fun hcontra => nomatch hcontra) ?_
    rintro ⟨hprint, hash, hmem⟩
    exact hother _ hmem hprint
  next hne =>
    rw [h number k v, exists_mem_iff_of_perm hperm]
    refine and_congr_right fun hprint => ?_
    exact or_iff_right fun ⟨heq, _⟩ => hne (heq ▸ hprint)

/-- The fingerprints that a ledger leaves are those of the stored keys. -/
theorem Records.mem_prints (h : t.Records print ledger) {number : Nat} :
    number ∈ ledger.prints ↔ ∃ entry ∈ t.toList, print entry.2.1 = number := by
  rw [Ledger.mem_prints, ne_eq, ← Ledger.binding?_eq_none_iff, ← ne_eq, Option.ne_none_iff_exists']
  constructor
  · rintro ⟨⟨k, v⟩, hentry⟩
    obtain ⟨hprint, hash, hmem⟩ := (h number k v).mp hentry
    exact ⟨_, hmem, hprint⟩
  · rintro ⟨⟨hash, k, v⟩, hmem, rfl⟩
    exact ⟨_, h.binding?_of_mem hmem⟩

/-- A table has as many entries as its ledger leaves fingerprints. -/
theorem Records.size_eq (h : t.Records print ledger) (hvalid : t.Valid)
    (hnodup : (t.toList.map fun entry => print entry.2.1).Nodup) :
    t.size = ledger.prints.card := by
  have hprints : ledger.prints = (t.toList.map fun entry => print entry.2.1).toFinset := by
    ext number
    rw [h.mem_prints, List.mem_toFinset, List.mem_map]
  rw [hprints, List.toFinset_card_of_nodup hnodup, List.length_map, hvalid.size_eq]

end ProbeTable

end ObjectHeap
