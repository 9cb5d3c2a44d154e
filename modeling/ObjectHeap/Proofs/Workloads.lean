import ObjectHeap.Mixing
import ObjectHeap.Workload
import ObjectHeap.Proofs.Stock

/-! # What a workload keeps

A workload builds records, each of nine blocks, and holds what it has built so far only by its
roots. Every block of a record is a root, or can be reached from one, whenever something is
allocated. So no collection takes part of a record, and at the end exactly the records are left
that the workload has kept.
-/

namespace ObjectHeap

/-- The load factor of the standard settings is three quarters. -/
theorem Settings.standard_load :
    4 * Settings.standard.loadFactor.magnitude = 3 * Binary64.unit := by
  decide +kernel

theorem Settings.standard_fraction : Settings.standard.loadFactor.Fraction :=
  ⟨rfl, rfl, rfl, by decide +kernel, by decide +kernel⟩

/-- Eight slots are what four entries ask for. -/
theorem Settings.standard_capacity : ProbeTable.capacityFor? 4 Settings.standard.loadFactor
    Settings.standard.minHashCapacity = some 8 := by
  decide +kernel

namespace ProbeTable

/-- Whether a table of eight slots has some entries, and no trace of others. -/
structure Lists (t : ProbeTable) (entries : List (Value × Value)) : Prop where
  capacity_eq : t.capacity = 8
  keepsValues_eq : t.keepsValues = true
  used_le : t.size + t.tombstones ≤ entries.length
  perm : (t.toList.map Prod.snd).Perm entries

variable {t t' : ProbeTable} {entries : List (Value × Value)}

theorem lists_blank : (blank 8 true).Lists [] :=
  ⟨capacity_blank 8 true, rfl, Nat.le_refl 0, by rw [toList_blank]; exact List.Perm.nil⟩

theorem Lists.gain {hash : UInt64} {key value : Value} (h : t.Lists entries)
    (hgains : t.Gains t' hash key value) (hperm : t'.toList.Perm ((hash, key, value) :: t.toList)) :
    t'.Lists ((key, value) :: entries) := by
  refine ⟨hgains.reshapes.capacity_eq.trans h.capacity_eq,
    hgains.reshapes.keepsValues_eq.trans h.keepsValues_eq, ?_, ?_⟩
  · exact hgains.used_le.trans (Nat.succ_le_succ h.used_le)
  · exact (hperm.map Prod.snd).trans (h.perm.cons (key, value))

theorem Lists.mem_edges (h : t.Lists entries) {v : Value} :
    v ∈ t.edges ↔ ∃ entry ∈ entries, v = entry.1 ∨ v = entry.2 := by
  rw [ProbeTable.mem_edges]
  constructor
  · rintro ⟨hash, key, value, hmem, hv⟩
    refine ⟨(key, value), h.perm.mem_iff.mp (List.mem_map.mpr ⟨_, hmem, rfl⟩), ?_⟩
    exact hv.imp_right And.right
  · rintro ⟨entry, hentry, hv⟩
    obtain ⟨⟨hash, key, value⟩, hmem, rfl⟩ := List.mem_map.mp (h.perm.mem_iff.mpr hentry)
    exact ⟨hash, key, value, hmem, hv.imp_right fun hv => ⟨h.keepsValues_eq, hv⟩⟩

theorem Lists.blockSize_eq (h : t.Lists entries) : (Body.hash t).blockSize = 208 := by
  rw [Body.blockSize, Body.payloadSize, h.capacity_eq, h.keepsValues_eq]
  rfl

/-- Under the standard load factor, eight slots take six entries. -/
theorem Lists.roomy (h : t.Lists entries) (hroom : entries.length < 6) :
    t.needsRehash Settings.standard.loadFactor = false := by
  rw [needsRehash_eq_false_iff Settings.standard_fraction, h.capacity_eq]
  have hused : t.size + t.tombstones + 1 ≤ 6 := Nat.succ_le_of_lt (h.used_le.trans_lt hroom)
  calc (t.size + t.tombstones + 1) * Binary64.unit
      ≤ 6 * Binary64.unit := Nat.mul_le_mul_right _ hused
    _ = 8 * Settings.standard.loadFactor.magnitude := by
        have := Settings.standard_load
        omega

end ProbeTable

/-! ## Texts -/

theorem utf8Len_of_digits {cs : List Char} (hdigits : ∀ c ∈ cs, c.isDigit = true) :
    String.utf8Len cs = cs.length := by
  induction cs with
  | nil => rfl
  | cons c cs ih =>
      have hdigit := hdigits c List.mem_cons_self
      rw [Char.isDigit, Bool.and_eq_true, decide_eq_true_iff, decide_eq_true_iff] at hdigit
      have hone : c.utf8Size = 1 :=
        Char.utf8Size_eq_one_iff.mpr (UInt32.le_trans hdigit.2 (by decide))
      rw [String.utf8Len_cons, hone, ih fun d hd => hdigits d (List.mem_cons_of_mem c hd)]
      rfl

theorem utf8ByteSize_item (n : Nat) :
    (s!"item-{n}").utf8ByteSize = 5 + (Nat.toDigits 10 n).length := by
  rw [String.utf8ByteSize_append, Nat.toString_eq_ofList_toDigits, String.utf8ByteSize_ofList,
    utf8Len_of_digits fun c hc => Nat.isDigit_of_mem_toDigits (by decide) (by decide) hc]
  rfl

theorem Part.size_text (slot : Nat) (text : String) :
    (Part.text slot text).size = Layout.roundUp (16 + text.utf8ByteSize) := by
  rw [← String.size_toByteArray]
  change Layout.roundUp (8 + (8 + _)) = _
  rw [← Nat.add_assoc]
  rfl

/-- Whether a value refers to a text among some blocks. -/
def Spells (parts : List Part) (v : Value) (text : String) : Prop :=
  ∃ slot, v.slot? = some slot ∧ Part.text slot text ∈ parts

theorem Spells.mono {parts parts' : List Part} {v : Value} {text : String} (h : Spells parts v text)
    (hsub : ∀ slot, Part.text slot text ∈ parts → Part.text slot text ∈ parts') :
    Spells parts' v text := by
  obtain ⟨slot, hslot, hmem⟩ := h
  exact ⟨slot, hslot, hsub slot hmem⟩

namespace Workload

def settings (w : Workload) : Settings :=
  { Settings.standard with heapSize := w.heapSize, markStackSize := w.markStack }

/-- The numbers below a bound of the records that are kept at first. -/
def chosenBelow (w : Workload) (bound : Nat) : List Nat :=
  (List.range bound).filter fun n => max w.keepEvery 1 ∣ n

/-- The numbers of the records that are kept at first. -/
def chosen (w : Workload) : List Nat := w.chosenBelow w.iterations

/-- How many records are left at the end. -/
def keptCount (w : Workload) : Nat := min w.retain w.chosen.length

/-- The bytes of a record: those of a dict of eight slots, four names, a list of four cells, a pair
and a float, and those of a text that ends in the digits of the number. -/
def recordBytes (n : Nat) : Nat := 400 + Layout.roundUp (21 + (Nat.toDigits 10 n).length)

/-- The blocks of a record beside its dict, newest first: the four names with the values of three
of them, and the list that one of these values refers to. -/
def fieldParts (n slot₁ slot₂ slot₃ slot₄ slotName slotList slotTags slotRatio : Nat)
    (id list : Value) (seq : BoundedSeq Value) (x : Binary64) : List Part :=
  [Part.text slot₄ "ratio", ⟨slotRatio, .float, .float x⟩, Part.text slot₃ "tags",
    ⟨slotTags, .tuple, .objects (BoundedSeq.filled #[id, list])⟩, ⟨slotList, .list, .objects seq⟩,
    Part.text slotName s!"item-{n}", Part.text slot₂ "name", Part.text slot₁ "id"]

/-- Whether some blocks make up the record with a number, and nothing else. -/
structure IsRecord (n : Nat) (v : Value) (parts : List Part) : Prop extends Cluster v parts where
  length_eq : parts.length = 9
  bytes_eq : (parts.map Part.size).sum = recordBytes n

/-- A record that is kept: its number, its value and its blocks. -/
structure Kept where
  number : Nat
  value : Value
  parts : List Part

/-- The blocks and bytes of some records. -/
theorem shelf_counts {shelf : List Kept}
    (hrecords : ∀ item ∈ shelf, IsRecord item.number item.value item.parts) :
    (shelf.flatMap Kept.parts).length = 9 * shelf.length ∧
      ((shelf.flatMap Kept.parts).map Part.size).sum =
        ((shelf.map Kept.number).map recordBytes).sum := by
  induction shelf with
  | nil => exact ⟨rfl, rfl⟩
  | cons item rest ih =>
      obtain ⟨hlength, hbytes⟩ := ih fun kept hkept => hrecords kept (List.mem_cons_of_mem _ hkept)
      have hitem := hrecords item List.mem_cons_self
      simp only [List.flatMap_cons, List.length_append, List.length_cons, List.map_append,
        List.sum_append, List.map_cons, List.sum_cons, hlength, hbytes, hitem.length_eq,
        hitem.bytes_eq, and_true]
      omega

theorem chosenBelow_succ (w : Workload) (n : Nat) : w.chosenBelow (n + 1) =
    w.chosenBelow n ++ if max w.keepEvery 1 ∣ n then [n] else [] := by
  rw [chosenBelow, List.range_succ, List.filter_append, List.filter_singleton]
  simp [chosenBelow]

/-- The last items of a list, as many as there is place for. -/
def window {α : Type} (size : Nat) (items : List α) : List α := items.drop (items.length - size)

theorem length_window {α : Type} (size : Nat) (items : List α) :
    (window size items).length = min size items.length := by
  rw [window, List.length_drop]
  omega

/-- One more item moves a full window by one. -/
theorem window_concat {α : Type} (items : List α) {size : Nat} (hpos : 0 < size) (a : α) :
    window size (items ++ [a]) =
      (if (window size items).length = size then (window size items).tail
        else window size items) ++ [a] := by
  have hlength : (items ++ [a]).length = items.length + 1 := List.length_append
  rw [length_window, window, window, hlength, List.drop_append_of_le_length (by omega)]
  congr 1
  split
  next hfull =>
    rw [List.tail_drop]
    congr 1
    omega
  next hroom =>
    congr 1
    omega

end Workload

namespace Heap

variable [Digest] {w : Workload} {h : Heap} {starts roots : List Value} {record v : Value}
  {entries : List (String × Value × Value)} {parts : List Part}

/-- The state while a record is built: some names are bound in its dict, and there is a stock of
other blocks, the texts of these names among them. -/
structure Drafts (h : Heap) (w : Workload) (starts : List Value) (record : Value)
    (entries : List (String × Value × Value)) (parts : List Part) : Prop where
  named : ∀ entry ∈ entries, Spells parts entry.2.1 entry.1
  stocked : ∃ slot t, record.slot? = some slot ∧ t.Lists (entries.map Prod.snd) ∧
    h.Stocks w.settings starts (⟨slot, .dict, .hash t⟩ :: parts)

/-- A record begins as an empty dict. -/
theorem newDict_drafts (hs : h.Stocks w.settings starts parts) :
    Yields (fun _ => False) (newDict starts 4) h
      (fun v h' => h'.Drafts w (starts ++ [v]) v [] parts)
      fun refusal _ => refusal.isOutOfMemory = true := by
  refine (newTable_yields hs.sound hs.usable (fun _ => rfl) 4).mono (fun v h' hnew => ?_)
    fun _ _ hd => hd.1
  obtain ⟨slots, _, slot, hcapacity, _, _, hslot, hnew⟩ := hnew
  rw [hs.settings_eq] at hcapacity
  obtain rfl : slots = 8 := Option.some.inj (hcapacity.symm.trans Settings.standard_capacity)
  exact ⟨by simp, slot, _, hslot, ProbeTable.lists_blank,
    hs.allocated hnew (fun _ hv => hv) hslot⟩

section Steps

variable (hd : h.Drafts w starts record entries parts)
include hd

theorem Drafts.usable : ∀ v ∈ starts, h.Usable (fun _ => False) v := by
  obtain ⟨_, _, _, _, hs⟩ := hd.stocked
  exact hs.usable

theorem Drafts.present : ∀ p ∈ parts, p.In h := by
  obtain ⟨_, _, _, _, hs⟩ := hd.stocked
  exact fun p hp => hs.present p (List.mem_cons_of_mem _ hp)

theorem Drafts.allocate {kind : Kind} {body : Body} (ha : h.Accepts (fun _ => False) kind body) :
    Yields (fun _ => False) (Heap.allocate starts kind body) h
      (fun v h' => ∃ slot, v.slot? = some slot ∧
        h'.Drafts w (starts ++ [v]) record entries (⟨slot, kind, body⟩ :: parts))
      fun refusal _ => refusal.isOutOfMemory = true := by
  obtain ⟨slot, t, hrecord, ht, hs⟩ := hd.stocked
  refine (hs.allocate ha).mono (fun v h' hnew => ?_) fun _ _ hrefused => hrefused
  obtain ⟨new, hnew, hs'⟩ := hnew
  refine ⟨new, hnew, fun entry hentry => ?_, slot, t, hrecord, ht, hs'.perm (.swap ..)⟩
  exact (hd.named entry hentry).mono fun _ hmem => List.mem_cons_of_mem _ hmem

theorem Drafts.newString (text : String) :
    Yields (fun _ => False) (Heap.newString starts text) h
      (fun v h' => ∃ slot, v.slot? = some slot ∧
        h'.Drafts w (starts ++ [v]) record entries (Part.text slot text :: parts))
      fun refusal _ => refusal.isOutOfMemory = true :=
  hd.allocate (accepts_bytes rfl (BoundedSeq.valid_filled _))

/-- A name that is not bound yet can be bound in the dict, without an allocation. -/
theorem Drafts.put {key value : Value} (text : String) (hkey : Spells parts key text)
    (hvalue : h.Usable (fun _ => False) value) (hnew : text ∉ entries.map Prod.fst)
    (hroom : entries.length < 6) {R : Refusal → Heap → Prop} :
    Yields (fun _ => False) (dictPut roots record key value) h
      (fun _ h' => h'.Drafts w starts record ((text, key, value) :: entries) parts) R := by
  obtain ⟨slot, t, hrecord, ht, hs⟩ := hd.stocked
  obtain ⟨place, hplace, hmem⟩ := hkey
  have hin := hd.present _ hmem
  have husable : h.Usable (fun _ => False) key := by
    obtain ⟨block, hblock, _⟩ := hin
    exact usable_of_slot? hplace hblock
  have hother (entry : UInt64 × Value × Value) (hentry : entry ∈ t.toList) :
      h.fingerprint entry.2.1 ≠ h.fingerprint key := by
    obtain ⟨bound, hbound, heq⟩ := List.mem_map.mp
      (ht.perm.mem_iff.mp (List.mem_map.mpr ⟨entry, hentry, rfl⟩))
    obtain ⟨s, hslot, hspelled⟩ := hd.named bound hbound
    rw [heq] at hslot
    refine fingerprint_text_ne ?_ hslot (hd.present _ hspelled) hplace hin
    rintro rfl
    exact hnew (List.mem_map.mpr ⟨bound, hbound, rfl⟩)
  refine (hs.dictPut hrecord (ht.roomy (by simpa using hroom)) (keyable_text hplace hin)
    husable hvalue hother).mono (fun _ h' hput => ?_) fun _ _ hR => hR
  obtain ⟨hash, t', hgains, hperm, hs'⟩ := hput
  refine ⟨fun entry hentry => ?_, slot, t', hrecord, ht.gain hgains hperm, hs'⟩
  rcases List.mem_cons.mp hentry with rfl | hentry
  · exact ⟨place, hplace, hmem⟩
  · exact hd.named entry hentry

end Steps

/-- A key or value in the dict is held by the record. -/
theorem Drafts.forget (hd : h.Drafts w (starts ++ [v]) record entries parts)
    (hrecord : record ∈ starts) (hv : ∃ entry ∈ entries, v = entry.2.1 ∨ v = entry.2.2) :
    h.Drafts w starts record entries parts := by
  obtain ⟨slot, t, hslot, ht, hs⟩ := hd.stocked
  refine ⟨hd.named, slot, t, hslot, ht, hs.forget fun next hnext => ?_⟩
  obtain ⟨block, hblock, _, hbody⟩ := hs.present _ List.mem_cons_self
  obtain ⟨entry, hentry, hv⟩ := hv
  have hedge : v ∈ block.body.edges := by
    rw [hbody]
    exact ht.mem_edges.mpr ⟨entry.2, List.mem_map.mpr ⟨entry, hentry, rfl⟩, hv⟩
  exact (Held.start hrecord hslot).edge hblock hedge hnext

/-- An item can be added to the newest block, if this is a list. -/
theorem Drafts.append {slot : Nat} {seq : BoundedSeq Value} {list item : Value}
    (hd : h.Drafts w starts record entries (⟨slot, .list, .objects seq⟩ :: parts))
    (hslot : list.slot? = some slot) (hitem : h.Usable (fun _ => False) item) :
    Yields (fun _ => False) (Heap.seqAppend starts list item) h
      (fun _ h' => ∃ seq' : BoundedSeq Value, seq'.toList = seq.toList ++ [item] ∧
        seq'.capacity =
          (if seq.capacity < seq.toList.length + 1 then
            grownCapacity seq.capacity (seq.toList.length + 1) else seq.capacity) ∧
        h'.Drafts w starts record entries (⟨slot, .list, .objects seq'⟩ :: parts))
      fun refusal _ => refusal.isOutOfMemory = true := by
  obtain ⟨dict, t, hrecord, ht, hs⟩ := hd.stocked
  refine ((hs.perm (.swap ..)).seqAppend hslot hitem).mono (fun _ h' happended => ?_)
    fun _ _ hrefused => hrefused
  obtain ⟨seq', hlist, hcapacity, hs'⟩ := happended
  refine ⟨seq', hlist, hcapacity, fun entry hentry => ?_, dict, t, hrecord, ht,
    hs'.perm (.swap ..)⟩
  refine (hd.named entry hentry).mono fun place hmem => ?_
  rcases List.mem_cons.mp hmem with heq | hmem
  · have hkind : Kind.string = Kind.list := congrArg Part.kind heq
    cases hkind
  · exact List.mem_cons_of_mem _ hmem

/-! ## Records -/

section Records

variable {n : Nat} {t : ProbeTable} {key₁ key₂ key₃ key₄ id name list tags ratio : Value}
  {slot slot₁ slot₂ slot₃ slot₄ slotName slotList slotTags slotRatio : Nat} {x : Binary64}
  {seq : BoundedSeq Value}

omit [Digest] in
/-- The bytes of the nine blocks. -/
theorem record_bytes (ht : t.Lists (entries.map Prod.snd)) (hcells : seq.capacity = 4) :
    ((⟨slot, .dict, .hash t⟩ :: Workload.fieldParts n slot₁ slot₂ slot₃ slot₄ slotName slotList
      slotTags slotRatio id list seq x).map Part.size).sum = Workload.recordBytes n := by
  have hdict : (⟨slot, .dict, .hash t⟩ : Part).size = 208 := ht.blockSize_eq
  have hshort (place : Nat) (text : String) (hsize : Layout.roundUp (16 + text.utf8ByteSize) = 24) :
      (Part.text place text).size = 24 := (Part.size_text place text).trans hsize
  have hitem : (Part.text slotName s!"item-{n}").size =
      Layout.roundUp (21 + (Nat.toDigits 10 n).length) := by
    rw [Part.size_text, utf8ByteSize_item, ← Nat.add_assoc]
  have hlist : (⟨slotList, .list, .objects seq⟩ : Part).size = 48 := by
    rw [Part.size, Body.blockSize, Body.payloadSize, hcells]
    rfl
  have hpair : (⟨slotTags, .tuple, .objects (BoundedSeq.filled #[id, list])⟩ : Part).size = 32 := by
    rw [Part.size, Body.blockSize, Body.payloadSize, BoundedSeq.capacity_filled,
      show #[id, list].size = 2 from rfl]
    rfl
  have hfloat : (⟨slotRatio, .float, .float x⟩ : Part).size = 16 := by
    rw [Part.size, Body.blockSize, Body.payloadSize]
    rfl
  simp only [Workload.fieldParts, List.map_cons, List.map_nil, List.sum_cons, List.sum_nil, hdict,
    hitem, hlist, hpair, hfloat, hshort slot₁ "id" rfl, hshort slot₂ "name" rfl,
    hshort slot₃ "tags" rfl, hshort slot₄ "ratio" rfl, Workload.recordBytes]
  omega

variable (hkey₁ : key₁.slot? = some slot₁) (hkey₂ : key₂.slot? = some slot₂)
  (hkey₃ : key₃.slot? = some slot₃) (hkey₄ : key₄.slot? = some slot₄)
  (hname : name.slot? = some slotName) (hlist : list.slot? = some slotList)
  (htags : tags.slot? = some slotTags) (hratio : ratio.slot? = some slotRatio)
  (hid : id.slot? = none) (hitems : ∀ w ∈ seq.toList, w.slot? = none)
include hkey₁ hkey₂ hkey₃ hkey₄ hname hlist htags hratio hid hitems

omit [Digest] in
/-- The dict of a record leads to all of its blocks: to its keys, to the text, the pair and the
float that are its values, and through the pair to the list. -/
theorem record_cluster (hrecord : record.slot? = some slot)
    (ht : t.Lists [(key₄, ratio), (key₃, tags), (key₂, name), (key₁, id)]) :
    Cluster record (⟨slot, .dict, .hash t⟩ :: Workload.fieldParts n slot₁ slot₂ slot₃ slot₄ slotName
      slotList slotTags slotRatio id list seq x) := by
  have htext {key : Value} {place : Nat} (text : String) (hkey : key.slot? = some place) :
      Cluster key [Part.text place text] := .leaf hkey (by simp [Body.edges])
  have hfloat : Cluster ratio [⟨slotRatio, .float, .float x⟩] := .leaf hratio (by simp [Body.edges])
  have hcells : Cluster list [⟨slotList, .list, .objects seq⟩] := .leaf hlist hitems
  have hpair : Cluster tags [⟨slotTags, .tuple, .objects (BoundedSeq.filled #[id, list])⟩,
      ⟨slotList, .list, .objects seq⟩] :=
    .node [(list, [⟨slotList, .list, .objects seq⟩])] htags (by simpa using hcells)
      (by simp [Body.edges]) (by simp [Body.edges, hid])
  refine .node [(key₄, [Part.text slot₄ "ratio"]), (ratio, [⟨slotRatio, .float, .float x⟩]),
    (key₃, [Part.text slot₃ "tags"]), (tags, [_, _]), (name, [Part.text slotName s!"item-{n}"]),
    (key₂, [Part.text slot₂ "name"]), (key₁, [Part.text slot₁ "id"])] hrecord ?_
    (fun item hitem => ht.mem_edges.mpr ?_) fun v hv => ?_
  · simp only [List.forall_mem_cons, List.not_mem_nil, false_implies, implies_true, and_true]
    exact ⟨htext _ hkey₄, hfloat, htext _ hkey₃, hpair, htext _ hname, htext _ hkey₂,
      htext _ hkey₁⟩
  · simp only [List.mem_cons, List.not_mem_nil, or_false] at hitem
    rcases hitem with rfl | rfl | rfl | rfl | rfl | rfl | rfl <;> simp
  · obtain ⟨entry, hentry, hv⟩ := ht.mem_edges.mp hv
    simp only [List.mem_cons, List.not_mem_nil, or_false] at hentry
    rcases hentry with rfl | rfl | rfl | rfl <;> rcases hv with rfl | rfl <;> simp [hid]

/-- The blocks of a finished draft are those of a record, in stock beside the others. -/
theorem Drafts.finish
    (hd : h.Drafts w starts record
      [("ratio", key₄, ratio), ("tags", key₃, tags), ("name", key₂, name), ("id", key₁, id)]
      (Workload.fieldParts n slot₁ slot₂ slot₃ slot₄ slotName slotList slotTags slotRatio id list
        seq x ++ parts))
    (hcells : seq.capacity = 4) :
    ∃ new, Workload.IsRecord n record new ∧ h.Stocks w.settings starts (new ++ parts) := by
  obtain ⟨slot, t, hrecord, ht, hs⟩ := hd.stocked
  have hcluster := record_cluster (n := n) (x := x) hkey₁ hkey₂ hkey₃ hkey₄ hname hlist htags hratio
    hid hitems hrecord ht
  exact ⟨_, ⟨hcluster, rfl, record_bytes ht hcells⟩, hs⟩

end Records

omit [Digest] in
/-- A number below the bound of small integers needs no block. -/
theorem exists_smallInt {n : Nat} (hn : n < 2 ^ 30) :
    ∃ v, Value.smallInt (n : Int) = .ok v ∧ v.slot? = none := by
  have hfits : Value.fitsSmallInt (n : Int) = true := by
    simp [Value.fitsSmallInt, Value.smallIntMin, Value.smallIntMax]
    omega
  exact ⟨_, smallInt_of_fits hfits, Value.slot?_ofInline ..⟩

end Heap

namespace Workload

open Heap

theorem low16_eq (n : Nat) : ∃ v, low16 n = .ok v ∧ v.slot? = none := by
  have hlt : n % 65536 < 2 ^ 30 := (Nat.mod_lt n (by decide)).trans (by decide)
  exact exists_smallInt hlt

theorem next32_eq {n : Nat} (hn : n < 2 ^ 30) : next32 n = .ok (n + 1) := by
  have hne : n % 4294967296 ≠ 2147483647 := by omega
  have hrequire : require (n % 4294967296 ≠ 2147483647) Fault.arithmetic = .ok () :=
    require_eq_ok_iff.mpr (decide_eq_true hne)
  rw [next32, hrequire]
  rfl

section Runs

variable [Digest] {w : Workload} {h : Heap} {kept : List Value} {parts : List Part}

omit [Digest] in
theorem newInt_yields {roots : List Value} {n : Nat} (hn : n < 2 ^ 30) {R : Refusal → Heap → Prop} :
    Yields (fun _ => False) (newInt roots (Int64.ofNat n)) h
      (fun v h' => h' = h ∧ v.slot? = none ∧ h.Usable (fun _ => False) v) R := by
  obtain ⟨v, hv, hslot⟩ := exists_smallInt hn
  have hnat : (Int64.ofNat n).toInt = n := Int64.toInt_ofNat_of_lt (hn.trans (by decide))
  unfold newInt
  rw [hnat]
  split
  next => exact Yields.lift_eq hv ⟨rfl, hslot, usable_smallInt hv⟩
  next hunfit =>
    rw [Value.smallInt, if_neg hunfit] at hv
    cases hv

/-- A record is built next to what is kept, or there is no memory for it. -/
theorem makeRecord_yields (hs : h.Stocks w.settings kept parts) {n : Nat} (hn : n < 2 ^ 30) :
    Yields (fun _ => False) (makeRecord kept n) h
      (fun v h' => ∃ new starts, IsRecord n v new ∧ h'.Stocks w.settings starts (new ++ parts))
      fun refusal _ => refusal.isOutOfMemory = true := by
  refine Yields.bind (newDict_drafts hs) ?_
  intro record h hd
  refine Yields.bind (hd.newString "id") ?_
  rintro key₁ h ⟨slot₁, hkey₁, hd⟩
  refine Yields.bind (newInt_yields hn) ?_
  rintro id _ ⟨rfl, hid, husable⟩
  refine Yields.bind (hd.put "id" ⟨slot₁, hkey₁, by simp⟩ husable (by simp) (by simp)) ?_
  intro _ h hd
  refine Yields.bind (hd.newString "name") ?_
  rintro key₂ h ⟨slot₂, hkey₂, hd⟩
  refine Yields.bind (hd.newString s!"item-{n}") ?_
  rintro name h ⟨slotName, hname, hd⟩
  refine Yields.bind (hd.put "name" ⟨slot₂, hkey₂, by simp⟩ (hd.usable name (by simp)) (by simp)
    (by simp)) ?_
  intro _ h hd
  -- the text has no root of its own, but the dict holds it from here on
  have hd := hd.forget (by simp) ⟨_, List.mem_cons_self, Or.inr rfl⟩
  refine Yields.bind (hd.allocate (accepts_objects rfl (BoundedSeq.valid_filled #[]) (by simp))) ?_
  rintro list h ⟨slotList, hlist, hd⟩
  obtain ⟨first, hfirst, hinline⟩ := low16_eq n
  refine Yields.look_eq hfirst (Yields.bind (hd.append hlist (usable_smallInt hfirst)) ?_)
  rintro _ h ⟨grown, hgrown, hcells, hd⟩
  have hgrown : grown.toList = [first] := by simpa using hgrown
  have hcells : grown.capacity = 4 := by simpa [grownCapacity] using hcells
  obtain ⟨second, hsecond, hinline'⟩ := low16_eq (n + 1)
  refine Yields.look_eq (next32_eq hn) (Yields.look_eq hsecond
    (Yields.bind (hd.append hlist (usable_smallInt hsecond)) ?_))
  rintro _ h ⟨seq, hseq, hcells', hd⟩
  have hseq : seq.toList = [first, second] := by rw [hseq, hgrown]; rfl
  have hcells : seq.capacity = 4 := by simpa [hgrown, hcells] using hcells'
  have hpair : ∀ v ∈ (BoundedSeq.filled #[id, list]).toList, h.Usable (fun _ => False) v := by
    simp only [BoundedSeq.toList_filled, List.forall_mem_cons, List.not_mem_nil, false_implies,
      implies_true, and_true]
    exact ⟨husable.mono fun s hs => by simp [hid] at hs, hd.usable list (by simp)⟩
  refine Yields.bind (hd.allocate (accepts_objects rfl (BoundedSeq.valid_filled _) hpair)) ?_
  rintro tags h ⟨slotTags, htags, hd⟩
  refine Yields.bind (hd.newString "tags") ?_
  rintro key₃ h ⟨slot₃, hkey₃, hd⟩
  refine Yields.bind (hd.put "tags" ⟨slot₃, hkey₃, by simp⟩ (hd.usable tags (by simp)) (by simp)
    (by simp)) ?_
  intro _ h hd
  -- the same goes for this key
  have hd := hd.forget (by simp) ⟨_, List.mem_cons_self, Or.inl rfl⟩
  refine Yields.bind (hd.allocate (accepts_float _)) ?_
  rintro ratio h ⟨slotRatio, hratio, hd⟩
  refine Yields.bind (hd.newString "ratio") ?_
  rintro key₄ h ⟨slot₄, hkey₄, hd⟩
  refine Yields.bind (hd.put "ratio" ⟨slot₄, hkey₄, by simp⟩ (hd.usable ratio (by simp)) (by simp)
    (by simp)) ?_
  intro _ h hd
  obtain ⟨new, hrecord, hs⟩ := hd.finish hkey₁ hkey₂ hkey₃ hkey₄ hname hlist htags hratio hid
    (by simp [hseq, hinline, hinline']) hcells
  exact Yields.pure ⟨new, _, hrecord, hs⟩

/-! ## The records that are kept -/

/-- The state after all records below a bound have been built: the last of those chosen are kept,
as many as may be. -/
structure Keeps (w : Workload) (bound : Nat) (shelf : List Kept) (h : Heap) : Prop where
  numbers_eq : shelf.map Kept.number = window w.retain (w.chosenBelow bound)
  records : ∀ item ∈ shelf, IsRecord item.number item.value item.parts
  stocks : h.Stocks w.settings (shelf.map Kept.value) (shelf.flatMap Kept.parts)

/-- The shelf after a record has been built that is kept. -/
theorem Keeps.keep {n : Nat} {shelf : List Kept} {h' : Heap} (hk : w.Keeps n shelf h)
    (item : Kept) {starts : List Value} (hpos : 0 < w.retain) (hchosen : max w.keepEvery 1 ∣ n)
    (hnumber : item.number = n) (hrecord : IsRecord item.number item.value item.parts)
    (hs : h'.Stocks w.settings starts (item.parts ++ shelf.flatMap Kept.parts)) :
    w.Keeps (n + 1) ((if shelf.length = w.retain then shelf.tail else shelf) ++ [item]) h' := by
  have hsublist : (if shelf.length = w.retain then shelf.tail else shelf).Sublist shelf := by
    split
    next => exact List.tail_sublist shelf
    next => exact List.Sublist.refl shelf
  have hrecords : ∀ kept ∈ (if shelf.length = w.retain then shelf.tail else shelf) ++ [item],
      IsRecord kept.number kept.value kept.parts := by
    intro kept hkept
    rcases List.mem_append.mp hkept with hkept | hkept
    · exact hk.records kept (hsublist.subset hkept)
    · rwa [List.mem_singleton.mp hkept]
  refine ⟨?_, hrecords, ?_⟩
  · rw [chosenBelow_succ, if_pos hchosen, window_concat _ hpos, ← hk.numbers_eq, List.length_map,
      List.map_append, apply_ite (List.map Kept.number), List.map_tail, List.map_singleton, hnumber]
  · refine hs.regroup (fun kept hkept => (hrecords kept hkept).toCluster) ?_
    rw [List.flatMap_append, List.flatMap_singleton]
    exact List.perm_append_comm.subperm.trans
      ((hsublist.flatMap Kept.parts).append_left item.parts).subperm

/-- A record that is not kept becomes garbage. -/
theorem Keeps.skip {n : Nat} {shelf : List Kept} {h' : Heap} (hk : w.Keeps n shelf h)
    {new : List Part} {starts : List Value} (hskip : ¬ (0 < w.retain ∧ max w.keepEvery 1 ∣ n))
    (hs : h'.Stocks w.settings starts (new ++ shelf.flatMap Kept.parts)) :
    w.Keeps (n + 1) shelf h' := by
  refine ⟨hk.numbers_eq.trans ?_, hk.records, hs.regroup
    (fun kept hkept => (hk.records kept hkept).toCluster) (List.sublist_append_right ..).subperm⟩
  rw [chosenBelow_succ]
  split
  next hchosen =>
    obtain hzero : w.retain = 0 := by
      by_contra hne
      exact hskip ⟨Nat.pos_of_ne_zero hne, hchosen⟩
    rw [hzero, window, window, Nat.sub_zero, Nat.sub_zero, List.drop_length, List.drop_length]
  next => rw [List.append_nil]

/-- Building records keeps the last ones, or there is no memory for one. -/
theorem build_yields {count n : Nat} {shelf : List Kept} (hn : n + count ≤ 2 ^ 30)
    (hk : w.Keeps n shelf h) :
    Yields (fun _ => False) (w.build count n (shelf.map Kept.value)) h
      (fun kept h' => ∃ shelf', kept = shelf'.map Kept.value ∧ w.Keeps (n + count) shelf' h')
      fun refusal _ => refusal.isOutOfMemory = true := by
  induction count generalizing n shelf h with
  | zero => exact Yields.pure ⟨shelf, rfl, hk⟩
  | succ count ih =>
      refine Yields.bind (makeRecord_yields hk.stocks (by omega)) ?_
      rintro record h' ⟨new, starts, hrecord, hs⟩
      rw [← Nat.add_assoc, Nat.add_right_comm]
      dsimp only
      split
      next hkeep =>
        have hk' := hk.keep ⟨n, record, new⟩ hkeep.1 (Nat.dvd_of_mod_eq_zero hkeep.2) rfl hrecord hs
        have hkept : w.keep (shelf.map Kept.value) record = List.map Kept.value
            ((if shelf.length = w.retain then shelf.tail else shelf) ++ [⟨n, record, new⟩]) := by
          rw [keep, List.length_map, List.map_append, apply_ite (List.map Kept.value),
            List.map_tail]
          rfl
        rw [hkept]
        exact ih (by omega) hk'
      next hskip =>
        exact ih (by omega) (hk.skip (fun hboth =>
          hskip ⟨hboth.1, Nat.mod_eq_zero_of_dvd hboth.2⟩) hs)

/-! ## Whole runs -/

/-- The last collection always runs to its end, and leaves the records that are kept. -/
theorem Keeps.collect {shelf : List Kept} (hk : w.Keeps w.iterations shelf h) :
    ∃ report h', Heap.collect (shelf.map Kept.value) h = .ok report h' ∧
      h'.liveObjects = 9 * w.keptCount ∧
      h'.usedBytes = ((w.chosen.drop (w.chosen.length - w.keptCount)).map recordBytes).sum := by
  obtain ⟨report, h', hcollect, hcollected⟩ :=
    collect_spec hk.stocks.sound fun v hv => (hk.stocks.usable v hv).1
  obtain ⟨hlive, hbytes⟩ := hk.stocks.collected_clusters
    (fun item hitem => (hk.records item hitem).toCluster) hcollected
  obtain ⟨hlength, hsum⟩ := shelf_counts hk.records
  have hnumbers : shelf.map Kept.number = window w.retain w.chosen := hk.numbers_eq
  have hcount : shelf.length = w.keptCount := by
    have hlengths := congrArg List.length hnumbers
    rwa [List.length_map, length_window] at hlengths
  have hlast : w.chosen.length - w.keptCount = w.chosen.length - w.retain := by
    rw [keptCount]
    omega
  exact ⟨report, h', hcollect, by rw [hlive, hlength, hcount], by
    rw [hbytes, hsum, hnumbers, window, hlast]⟩

theorem keeps_zero (hs : h.Stocks w.settings [] []) : w.Keeps 0 [] h :=
  ⟨by simp [chosenBelow, window], by simp, hs⟩

/-- A workload on an empty heap leaves the last of the chosen records, or there is no memory for
one. -/
theorem runOn_yields (hs : h.Stocks w.settings [] []) (hcount : w.iterations ≤ 2 ^ 30) :
    Yields (fun _ => False) w.runOn h
      (fun _ h' => h'.liveObjects = 9 * w.keptCount ∧ h'.usedBytes =
        ((w.chosen.drop (w.chosen.length - w.keptCount)).map recordBytes).sum)
      fun refusal _ => refusal.isOutOfMemory = true := by
  refine Yields.bind (build_yields (by omega) (keeps_zero hs)) ?_
  rintro _ h' ⟨shelf, rfl, hk⟩
  rw [Nat.zero_add] at hk
  obtain ⟨report, last, hcollect, hcounts⟩ := hk.collect
  exact Yields.get (Yields.bind (Yields.of_ok hcollect hcounts) fun _ _ hcounts =>
    Yields.pure hcounts)

/-- A heap without blocks is without a stock. -/
theorem stocks_new (hvalid : w.settings.flaw? = none) (hstack : w.markStack < markStackLimit) :
    ∃ h, Heap.new w.settings = .ok h ∧ h.Stocks w.settings [] [] := by
  have hrequire : require (w.settings.markStackSize < markStackLimit) Fault.arithmetic = .ok () :=
    require_eq_ok_iff.mpr (decide_eq_true hstack)
  have hnew : ∃ h, Heap.new w.settings = .ok h := by
    rw [Heap.new, hvalid, hrequire]
    exact ⟨_, rfl⟩
  obtain ⟨h, hnew⟩ := hnew
  have hsound : h.Sound (fun _ => False) 0 := sound_new hnew
  obtain ⟨_, rfl⟩ := flaw?_of_new hnew
  exact ⟨_, hnew, hsound, rfl, rfl, by simp [block?], by simp, by simp, by simp, by simp⟩

theorem run_eq_ok {liveBefore : Nat} {heap : Heap} (hnew : Heap.new w.settings = .ok h)
    (hrun : w.runOn h = .ok liveBefore heap) : w.run = .ok { liveBefore, heap } := by
  unfold run
  change (Heap.new w.settings >>= _) = _
  rw [hnew]
  simp only [bind, Except.bind, hrun]
  rfl

theorem run_eq_error {stop : Stop} {heap : Heap} (hnew : Heap.new w.settings = .ok h)
    (hrun : w.runOn h = .error stop heap) : w.run = .error stop := by
  unfold run
  change (Heap.new w.settings >>= _) = _
  rw [hnew]
  simp only [bind, Except.bind, hrun]
  rfl

/-- Whether there is memory for all records of a workload. -/
def fits (w : Workload) : Bool :=
  match Heap.new w.settings with
  | .ok h =>
    match w.build w.iterations 0 [] h with
    | .ok _ _ => true
    | .error _ _ => false
  | .error _ => false

/-- Only the records need memory: a workload ends well if they can be built. -/
theorem exists_run_of_fits (hvalid : w.settings.flaw? = none)
    (hstack : w.markStack < markStackLimit) (hcount : w.iterations ≤ 2 ^ 30)
    (hfits : w.fits = true) : ∃ result, w.run = .ok result := by
  obtain ⟨h, hnew, hs⟩ := stocks_new hvalid hstack
  rw [fits, hnew] at hfits
  dsimp only at hfits
  split at hfits
  next kept h' hbuild =>
    obtain ⟨shelf, rfl, hk⟩ := (build_yields (by omega) (keeps_zero hs)).result hbuild
    rw [Nat.zero_add] at hk
    obtain ⟨report, last, hcollect, _⟩ := hk.collect
    have hrun : w.runOn h = .ok h'.liveObjects last := by
      simp only [runOn, bind, EStateM.bind, hbuild, get, getThe, MonadStateOf.get, EStateM.get,
        hcollect]
      rfl
    exact ⟨_, run_eq_ok hnew hrun⟩
  next => cases hfits

/-- A workload of up to `2 ^ 30` records on a heap with settings that can be met never faults. It
runs out of memory, or ends with the last of the records that were chosen, as many as may be kept:
each of them nine blocks, and no other bytes in use than theirs, however often the heap has been
collected meanwhile. -/
theorem run_keeps_last_records (w : Workload) (hvalid : w.settings.flaw? = none)
    (hstack : w.markStack < markStackLimit) (hcount : w.iterations ≤ 2 ^ 30) :
    (∃ refusal, w.run = .error (.refused refusal) ∧ refusal.isOutOfMemory = true) ∨
      ∃ result, w.run = .ok result ∧ result.heap.liveObjects = 9 * w.keptCount ∧
        result.heap.usedBytes =
          ((w.chosen.drop (w.chosen.length - w.keptCount)).map recordBytes).sum := by
  obtain ⟨h, hnew, hs⟩ := stocks_new hvalid hstack
  have hyields := runOn_yields hs hcount
  cases hresult : w.runOn h with
  | ok liveBefore heap =>
      exact Or.inr ⟨⟨liveBefore, heap⟩, run_eq_ok hnew hresult, hyields.result hresult⟩
  | error stop heap =>
      cases stop with
      | refused refusal =>
          exact Or.inl ⟨refusal, run_eq_error hnew hresult, hyields.refusal hresult⟩
      | fault fault =>
          obtain ⟨_, hfalse, _⟩ := hyields.excuse hresult
          exact hfalse.elim

end Runs

/-- Three records, of which the first and the last are chosen and one may be kept. -/
def threeRecords : Workload :=
  { heapSize := 4096, markStack := 1, iterations := 3, keepEvery := 2, retain := 1 }

/-- The third record takes the place of the first, and the last collection frees both others. -/
theorem run_keeps_last_records_three : ∃ result, threeRecords.run = .ok result ∧
    result.heap.liveObjects = 9 ∧ result.heap.usedBytes = 424 := by
  have hvalid : threeRecords.settings.flaw? = none := by decide +kernel
  have hstack : threeRecords.markStack < markStackLimit := by decide
  have hcount : threeRecords.iterations ≤ 2 ^ 30 := by decide
  have hfits : threeRecords.fits = true := by decide +kernel
  rcases threeRecords.run_keeps_last_records hvalid hstack hcount with
    ⟨refusal, hrefused, _⟩ | ⟨result, hrun, hlive, hbytes⟩
  · obtain ⟨result, hrun⟩ := exists_run_of_fits hvalid hstack hcount hfits
    cases hrefused.symm.trans hrun
  · refine ⟨result, hrun, hlive.trans ?_, hbytes.trans ?_⟩
    · decide +kernel
    · decide +kernel

end Workload

end ObjectHeap
