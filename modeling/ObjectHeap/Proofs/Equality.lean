import Mathlib.Data.Finset.Dedup
import Mathlib.Data.List.Forall2
import Mathlib.Tactic.Common
import ObjectHeap.Proofs.Keys

/-! # Equality by fingerprints

In a coherent heap two values are equal exactly if they have the same fingerprint, and keys
with the same fingerprint have the same hash. Both are inductions on a *height* of the slots,
which falls from a tuple or a set to its members. A set is compared by searching the members of
one in the other by their hashes, so its case needs the hashes to agree and the members of one
set to have different fingerprints.
-/

namespace ObjectHeap

theorem allM_eq_decide {α : Type} {f : α → Except Fault Bool} {p : α → Prop} [DecidablePred p]
    {items : List α} (h : ∀ item ∈ items, f item = .ok (decide (p item))) :
    items.allM f = .ok (decide (∀ item ∈ items, p item)) := by
  induction items with
  | nil => rfl
  | cons head rest ih =>
      rw [List.allM, h head (List.mem_cons_self ..)]
      by_cases hhead : p head
      · have hrest := ih fun item hitem => h item (List.mem_cons_of_mem _ hitem)
        simp only [hhead, decide_true, List.forall_mem_cons, true_and]
        exact hrest
      · simp only [hhead, decide_false, List.forall_mem_cons, false_and]
        rfl

/-! ## Members -/

namespace Block

variable {block : Block} {content : Content}

/-- What a comparison goes down to is among the references of the block. -/
theorem mem_edges_of_mem_members (hcontent : block.content? = some content) {v : Value}
    (hv : v ∈ content.members) : v ∈ block.body.edges := by
  rcases mem_members hcontent hv with ⟨seq, hbody, _, hv⟩ | ⟨table, hash, value, hbody, _, hentry⟩
  · rw [hbody]
    exact hv
  · rw [hbody]
    exact ProbeTable.mem_edges.mpr ⟨hash, v, value, hentry, Or.inl rfl⟩

/-- The members of a block that can be a key are its parts. -/
theorem mem_parts_of_mem_members (hfits : block.body.fits block.header.kind = true)
    (hkind : block.header.kind.isHashable = true) (hcontent : block.content? = some content)
    {v : Value} (hv : v ∈ content.members) : v ∈ block.parts := by
  have hedge := mem_edges_of_mem_members hcontent hv
  rcases mem_members hcontent hv with ⟨seq, _, htuple, _⟩ | ⟨table, _, _, hbody, _, _⟩
  · rwa [parts_tuple htuple]
  · rwa [parts_frozenSet (kind_of_hash hfits hbody hkind)]

theorem mem_members_of_mem_parts (hfits : block.body.fits block.header.kind = true) {v : Value}
    (hv : v ∈ block.parts) : ∃ content, block.content? = some content ∧ v ∈ content.members := by
  have hedge := mem_edges_of_mem_parts hv
  rw [parts] at hv
  split at hv
  case isFalse => cases hv
  rename_i hkind
  cases hbody : block.body with
  | objects seq =>
      rw [hbody] at hfits hedge
      rcases hkind with hk | hk
      · exact ⟨_, content?_of_objects hbody hk, hedge⟩
      · rw [hk] at hfits
        cases hfits
  | hash table =>
      rw [hbody] at hfits hedge
      rcases hkind with hk | hk <;> rw [hk] at hfits
      · cases hfits
      · simp only [Body.fits, Bool.not_eq_true'] at hfits
        obtain ⟨hash, key, value, hentry, hkey⟩ := ProbeTable.mem_edges.mp hedge
        rw [hfits] at hkey
        rcases hkey with rfl | ⟨hfalse, _⟩
        · exact ⟨_, content?_of_hash hbody hfits, List.mem_map_of_mem hentry⟩
        · cases hfalse
  | _ =>
      rcases hkind with hk | hk <;> simp [hbody, hk, Body.fits, Kind.shape] at hfits

theorem content?_of_record (h : block.body.IsRecord) : block.content? = none := by
  rw [content?]
  cases hbody : block.body <;> first | rfl | (rw [hbody] at h; exact h.elim)

/-- The content of a block that can be a key stays when the block is changed. -/
theorem Alike.content?_eq {b b' : Block} (halike : b.Alike b')
    (hkind : b.header.kind.isHashable = true) : b'.content? = b.content? := by
  cases hfrozen : b.header.kind.isFrozen with
  | true => rw [content?, content?, halike.kind_eq, halike.body_eq hfrozen]
  | false =>
      have hshape := Kind.shape_of_hashable hkind hfrozen
      rw [content?_of_record (Body.isRecord_of_fits halike.fits hshape),
        content?_of_record (Body.isRecord_of_fits halike.fits' hshape)]

end Block

namespace Heap

/-- Whether the tuple or set in the slot `a` has a member in the slot `b`. -/
def Encloses (h : Heap) (a b : Nat) : Prop :=
  ∃ block content v, h.block? a = some block ∧ block.content? = some content ∧
    v ∈ content.members ∧ v.slot? = some b

/-- A rank that falls from tuples and sets to their members. -/
def HeightBy (h : Heap) (height : Nat → Nat) : Prop := ∀ a b, h.Encloses a b → height b < height a

/-- A walk over a value has one step more to go than one over its members. -/
theorem Reaches.member {h : Heap} {height : Nat → Nat} (hheight : h.HeightBy height) {depth : Nat}
    {v w : Value} {content : Content} (hv : Reaches height (depth + 1) v)
    (hcontent : h.content? v = some content) (hw : w ∈ content.members) :
    Reaches height depth w := by
  obtain ⟨slot, block, hslot, hblock, hfound⟩ := content?_eq_some hcontent
  have hdepth := hv.2 slot hslot
  refine ⟨by omega, fun other hother => ?_⟩
  have hless := hheight slot other ⟨block, content, w, hblock, hfound, hw, hother⟩
  omega

/-! ## Forms of values -/

section Forms

variable {h : Heap} {print : Value → Nat} {v : Value}

theorem form_number {n : Number} (hn : h.number? v = .ok (some n)) :
    h.form print v = n.form v.word := by
  rw [form, hn]

theorem form_content (hn : h.number? v = .ok none) :
    h.form print v = (h.content? v).elim (.itself v.word.toNat) (Content.form print) := by
  rw [form, hn]

/-- The form of a value depends on the fingerprints of its members only. -/
theorem form_congr {print' : Value → Nat}
    (hprint : ∀ content, h.content? v = some content → ∀ w ∈ content.members,
      print' w = print w) : h.form print' v = h.form print v := by
  rw [form, form]
  split
  next => rfl
  next =>
    cases hcontent : h.content? v with
    | none => rfl
    | some content => exact Content.form_congr (hprint content hcontent)

end Forms

theorem word_ne {a b : Value} (h : a ≠ b) : a.word.toNat ≠ b.word.toNat := by
  intro hword
  cases a
  cases b
  exact h (congrArg _ (UInt64.toNat_inj.mp hword))

theorem number_form_ne_itself {a b : Value} (h : a ≠ b) (n : Number) :
    n.form a.word ≠ .itself b.word.toNat := by
  rw [Number.form]
  split
  · exact Form.noConfusion
  · split
    · exact fun heq => word_ne h (Form.itself.inj heq)
    · exact Form.noConfusion

/-- No number has the form of a content. -/
theorem number_form_ne_content (word : UInt64) (n : Number) (content : Content)
    (print : Value → Nat) : n.form word ≠ content.form print := by
  rw [Number.form]
  split
  · cases content <;> exact Form.noConfusion
  · split <;> cases content <;> exact Form.noConfusion

/-- No content has the form of a value that is compared by identity. -/
theorem content_form_ne_itself (content : Content) (print : Value → Nat) (word : Nat) :
    content.form print ≠ .itself word := by
  cases content <;> exact Form.noConfusion

/-- Different values of one form are both numbers or have both contents. -/
theorem cases_of_form_eq {h : Heap} {print : Value → Nat} {a b : Value} {x y : Option Number}
    (hab : a ≠ b) (hx : h.number? a = .ok x) (hy : h.number? b = .ok y)
    (heq : h.form print a = h.form print b) :
    (∃ m n, x = some m ∧ y = some n ∧ m.form a.word = n.form b.word) ∨
      (x = none ∧ y = none ∧ ∃ c d, h.content? a = some c ∧ h.content? b = some d ∧
        c.form print = d.form print) := by
  cases x with
  | some m =>
      cases y with
      | some n =>
          rw [form_number hx, form_number hy] at heq
          exact Or.inl ⟨m, n, rfl, rfl, heq⟩
      | none =>
          rw [form_number hx, form_content hy] at heq
          cases hd : h.content? b with
          | none =>
              rw [hd] at heq
              exact absurd heq (number_form_ne_itself hab m)
          | some d =>
              rw [hd] at heq
              exact absurd heq (number_form_ne_content _ m d print)
  | none =>
      cases y with
      | some n =>
          rw [form_content hx, form_number hy] at heq
          cases hc : h.content? a with
          | none =>
              rw [hc] at heq
              exact absurd heq.symm (number_form_ne_itself (Ne.symm hab) n)
          | some c =>
              rw [hc] at heq
              exact absurd heq.symm (number_form_ne_content _ n c print)
      | none =>
          rw [form_content hx, form_content hy] at heq
          cases hc : h.content? a with
          | none =>
              cases hd : h.content? b with
              | none =>
                  rw [hc, hd] at heq
                  exact absurd (Form.itself.inj heq) (word_ne hab)
              | some d =>
                  rw [hc, hd] at heq
                  exact absurd heq.symm (content_form_ne_itself d print _)
          | some c =>
              cases hd : h.content? b with
              | none =>
                  rw [hc, hd] at heq
                  exact absurd heq (content_form_ne_itself c print _)
              | some d =>
                  rw [hc, hd] at heq
                  exact Or.inr ⟨rfl, rfl, c, d, rfl, rfl, heq⟩

/-! ## Fingerprints -/

/-- Two heaps show the values of a set that is closed under membership alike. -/
structure Shows (h h' : Heap) (among : Value → Prop) : Prop where
  number?_eq : ∀ v, among v → h'.number? v = h.number? v
  content?_eq : ∀ v, among v → h'.content? v = h.content? v
  closed : ∀ v content w, among v → h.content? v = some content → w ∈ content.members → among w

/-- Heaps that show a value alike give it one form. -/
theorem Shows.form_eq {h h' : Heap} {among : Value → Prop} (hshows : h.Shows h' among) {v : Value}
    (hv : among v) (print : Value → Nat) : h'.form print v = h.form print v := by
  rw [form, form, hshows.number?_eq v hv, hshows.content?_eq v hv]

/-- By induction on the depth: heaps that show a value alike give it one fingerprint. -/
theorem Shows.fingerprintWithin_eq {h h' : Heap} {among : Value → Prop} (hshows : h.Shows h' among)
    {height : Nat → Nat} (hheight : h.HeightBy height) {depth depth' : Nat} {v : Value}
    (hv : among v) (hdepth : Reaches height depth v) (hdepth' : Reaches height depth' v) :
    h'.fingerprintWithin depth' v = h.fingerprintWithin depth v := by
  -- members are lower, so both depths suffice for them as well
  induction depth generalizing depth' v with
  | zero => exact absurd hdepth.1 (Nat.lt_irrefl 0)
  | succ depth ih =>
      obtain ⟨pred, rfl⟩ := Nat.exists_eq_succ_of_ne_zero (Nat.ne_of_gt hdepth'.1)
      rw [fingerprintWithin, fingerprintWithin, hshows.form_eq hv]
      refine congrArg _ (form_congr fun content hcontent w hw => ?_)
      exact ih (hshows.closed v content w hv hcontent hw) (hdepth.member hheight hcontent hw)
        (hdepth'.member hheight hcontent hw)

section Coherent

variable [Digest] {admits : Value → Prop} {h : Heap}

theorem Coherent.members_usable (hc : h.Coherent admits) {v w : Value} {content : Content}
    (hcontent : h.content? v = some content) (hw : w ∈ content.members) : h.Usable admits w := by
  obtain ⟨slot, block, _, hblock, hfound⟩ := content?_eq_some hcontent
  exact hc.edges_usable slot block hblock w (Block.mem_edges_of_mem_members hfound hw)

/-- The members of a set are keys. -/
theorem Coherent.keyable_of_mem_set (hc : h.Coherent admits) {v w : Value} {table : ProbeTable}
    (hcontent : h.content? v = some (.set table)) (hw : w ∈ (Content.set table).members) :
    h.Keyable w := by
  obtain ⟨slot, block, _, hblock, hfound⟩ := content?_eq_some hcontent
  obtain ⟨⟨hash, key, value⟩, hentry, rfl⟩ := List.mem_map.mp hw
  have hkeyed := hc.keyed slot block table hblock (Block.content?_set hfound).1
  exact ⟨hash, hkeyed.hashed hash key value hentry⟩

/-- The members of a key are keys. -/
theorem Coherent.keyable_member (hc : h.Coherent admits) {v w : Value} {content : Content}
    (hv : h.Keyable v) (hcontent : h.content? v = some content) (hw : w ∈ content.members) :
    h.Keyable w := by
  obtain ⟨slot, block, hslot, hblock, hfound⟩ := content?_eq_some hcontent
  have hfits := hc.fits slot block hblock
  exact hc.keyable_part hv hslot hblock
    (Block.mem_parts_of_mem_members hfits (hv.isHashable hslot hblock hfits) hfound hw)

/-- In a coherent heap there is a height by which every walk over members ends in time. -/
theorem Coherent.exists_height (hc : h.Coherent admits) :
    ∃ height, h.HeightBy height ∧ ∀ v, h.Usable admits v → Reaches height (h.slots.size + 1) v := by
  classical
  obtain ⟨rank, hrank, hdepth⟩ := hc.exists_rank
  -- a tuple that is no key may hold sets, whose members are keys: keys come first
  let isKey (slot : Nat) : Prop := ∃ v : Value, v.slot? = some slot ∧ h.Keyable v
  let height (slot : Nat) := if isKey slot then rank slot else h.slots.size + rank slot
  have hslots {a b : Nat} (hab : h.Encloses a b) : b < h.slots.size ∧ rank b < h.slots.size := by
    obtain ⟨block, content, w, hblock, hfound, hw, hslot⟩ := hab
    have husable := hc.edges_usable a block hblock w (Block.mem_edges_of_mem_members hfound hw)
    obtain ⟨part, hpart⟩ := husable.block? hslot
    have hless := (hdepth w husable).2 b hslot
    exact ⟨lt_size_of_block? hpart, by omega⟩
  have hheight : h.HeightBy height := by
    intro a b hab
    have hbelow := (hslots hab).2
    obtain ⟨block, content, w, hblock, hfound, hw, hslot⟩ := hab
    by_cases hb : isKey b
    · by_cases ha : isKey a
      · simp only [height, if_pos hb, if_pos ha]
        obtain ⟨v, hva, hkey⟩ := ha
        have hfits := hc.fits a block hblock
        have hpart := Block.mem_parts_of_mem_members hfits (hkey.isHashable hva hblock hfits)
          hfound hw
        exact hrank a b ⟨block, w, hblock, hpart, hslot⟩
      · simp only [height, if_pos hb, if_neg ha]
        omega
    · -- a member that is no key is one of a tuple that is no key
      have ha : ¬isKey a := by
        rintro ⟨v, hva, hkey⟩
        have hcontent : h.content? v = some content := by rw [content?_block hva hblock, hfound]
        exact hb ⟨w, hslot, hc.keyable_member hkey hcontent hw⟩
      have hpart : w ∈ block.parts := by
        rcases Block.mem_members hfound hw with
          ⟨_, _, htuple, _⟩ | ⟨table, hash, value, hbody, _, hentry⟩
        · rw [Block.parts_tuple htuple]
          exact Block.mem_edges_of_mem_members hfound hw
        · have hkeyed := hc.keyed a block table hblock hbody
          exact absurd ⟨w, hslot, hash, hkeyed.hashed hash w value hentry⟩ hb
      have hless := hrank a b ⟨block, w, hblock, hpart, hslot⟩
      simp only [height, if_neg hb, if_neg ha]
      omega
  have hbound (a b : Nat) (hab : h.Encloses a b) : b < h.slots.size := (hslots hab).1
  obtain ⟨height', hheight', hlt⟩ := exists_rank_lt hheight hbound
  refine ⟨height', hheight', fun v hv => ⟨Nat.succ_pos _, fun slot hslot => ?_⟩⟩
  obtain ⟨block, hblock⟩ := hv.block? hslot
  have hless := hlt slot (lt_size_of_block? hblock)
  omega

/-- A height is a rank: it falls along nesting. -/
theorem Coherent.rankedBy_of_height (hc : h.Coherent admits) {height : Nat → Nat}
    (hheight : h.HeightBy height) : h.RankedBy height := by
  rintro a b ⟨block, w, hblock, hw, hslot⟩
  obtain ⟨content, hfound, hmember⟩ := Block.mem_members_of_mem_parts (hc.fits a block hblock) hw
  exact hheight a b ⟨block, content, w, hblock, hfound, hmember, hslot⟩

theorem Coherent.shows_self (hc : h.Coherent admits) : h.Shows h (h.Usable admits) :=
  ⟨fun _ _ => rfl, fun _ _ => rfl, fun _ _ _ _ hcontent hw => hc.members_usable hcontent hw⟩

/-- The fingerprint of a value is made from those of its members. -/
theorem Coherent.fingerprint_eq (hc : h.Coherent admits) {v : Value} (hv : h.Usable admits v) :
    h.fingerprint v = Encodable.encode (h.form h.fingerprint v) := by
  obtain ⟨height, hheight, hdepth⟩ := hc.exists_height
  rw [fingerprint, fingerprintWithin]
  refine congrArg _ (form_congr fun content hcontent w hw => ?_)
  have hw' := hc.members_usable hcontent hw
  exact hc.shows_self.fingerprintWithin_eq hheight hw' (hdepth w hw')
    ((hdepth v hv).member hheight hcontent hw)

/-- Fingerprints are equal if the forms of the values are. -/
theorem Coherent.fingerprint_eq_iff (hc : h.Coherent admits) {a b : Value}
    (ha : h.Usable admits a) (hb : h.Usable admits b) :
    h.fingerprint a = h.fingerprint b ↔
      h.form h.fingerprint a = h.form h.fingerprint b := by
  rw [hc.fingerprint_eq ha, hc.fingerprint_eq hb, Encodable.encode_inj]

/-- Heaps that agree on a key give it the same fingerprint. -/
theorem Agree.fingerprint_eq {h' : Heap} {among : Value → Prop} (hagree : h.Agree h' among)
    (hc : h.Coherent admits) (hsize : h.slots.size ≤ h'.slots.size) {v : Value} (hv : among v)
    (husable : h.Usable admits v) (hkey : h.Keyable v) : h'.fingerprint v = h.fingerprint v := by
  have hshows : h.Shows h' fun v => among v ∧ h.Keyable v := by
    refine ⟨fun v hv => hagree.number?_eq hv.1, fun v hv => ?_,
      fun v content w hv hcontent hw => ?_⟩
    · cases hslot : v.slot? with
      | none => rw [content?_inline hslot, content?_inline hslot]
      | some slot =>
          obtain ⟨b, b', hb, hb', halike⟩ := hagree.alike v slot hv.1 hslot
          rw [content?_block hslot hb, content?_block hslot hb']
          exact halike.content?_eq (hv.2.isHashable hslot hb (hc.fits slot b hb))
    · obtain ⟨slot, b, hslot, hb, hfound⟩ := content?_eq_some hcontent
      have hfits := hc.fits slot b hb
      have hpart := Block.mem_parts_of_mem_members hfits (hv.2.isHashable hslot hb hfits) hfound hw
      exact ⟨hagree.closed v slot b w hv.1 hslot hb hpart, hc.keyable_part hv.2 hslot hb hpart⟩
  obtain ⟨height, hheight, hdepth⟩ := hc.exists_height
  have hdepth' : Reaches height (h'.slots.size + 1) v := by
    refine ⟨Nat.succ_pos _, fun slot hslot => ?_⟩
    have hless := (hdepth v husable).2 slot hslot
    omega
  exact hshows.fingerprintWithin_eq hheight ⟨hv, hkey⟩ (hdepth v husable) hdepth'

/-- A table stays keyed in heaps that agree on its keys. -/
theorem Keyed.agree {h' : Heap} {table : ProbeTable} (hkeyed : h.Keyed table)
    {among : Value → Prop} (hagree : h.Agree h' among) (hc : h.Coherent admits)
    (hsize : h.slots.size ≤ h'.slots.size)
    (hkeys : ∀ hash key value, (hash, key, value) ∈ table.toList →
      among key ∧ h.Usable admits key) : h'.Keyed table := by
  obtain ⟨rank, hrank, hdepth⟩ := hc.exists_rank
  constructor
  · intro hash key value hentry
    obtain ⟨hkey, husable⟩ := hkeys hash key value hentry
    rw [hagree.hashOf_eq hrank hsize hkey (hdepth key husable)]
    exact hkeyed.hashed hash key value hentry
  · have hprints : (table.toList.map fun entry => h'.fingerprint entry.2.1) =
        table.toList.map fun entry => h.fingerprint entry.2.1 := by
      refine List.map_congr_left fun (hash, key, value) hentry => ?_
      obtain ⟨hkey, husable⟩ := hkeys hash key value hentry
      exact hagree.fingerprint_eq hc hsize hkey husable
        ⟨hash, hkeyed.hashed hash key value hentry⟩
    rw [hprints]
    exact hkeyed.distinct

/-! ## Hashes -/

/-- Numbers of one form have one hash. -/
theorem numberHash_eq_of_form_eq {a b : UInt64} {x y : Number} (hsame : a = b → x = y)
    (h : x.form a = y.form b) : numberHash x = numberHash y := by
  rw [Number.form, Number.form] at h
  rw [numberHash, numberHash]
  cases hx : x.exactInt? with
  | some m =>
      cases hy : y.exactInt? with
      | some n =>
          rw [hx, hy] at h
          exact congrArg Digest.int (Int64.toInt_inj.mp (Form.int.inj h))
      | none =>
          rw [hx, hy] at h
          dsimp only at h
          split at h <;> cases h
  | none =>
      cases hy : y.exactInt? with
      | some n =>
          rw [hx, hy] at h
          dsimp only at h
          split at h <;> cases h
      | none =>
          rw [hx, hy] at h
          dsimp only at h ⊢
          split at h <;> split at h
          next => rw [hsame (UInt64.toNat_inj.mp (Form.itself.inj h))]
          next => cases h
          next => cases h
          next => rw [UInt64.toNat_inj.mp (Form.float.inj h)]

omit [Digest] in
/-- The hash of a set does not depend on the order of its entries. -/
theorem foldl_xor_perm {x y : List (UInt64 × Value × Value)} (start : UInt64)
    (h : (x.map fun entry => entry.1).Perm (y.map fun entry => entry.1)) :
    x.foldl (fun acc (hash, _, _) => acc ^^^ hash) start =
      y.foldl (fun acc (hash, _, _) => acc ^^^ hash) start := by
  have hmap (z : List (UInt64 × Value × Value)) :
      z.foldl (fun acc (hash, _, _) => acc ^^^ hash) start =
        (z.map fun entry => entry.1).foldl (· ^^^ ·) start := by
    rw [List.foldl_map]
  have hcomm : RightCommutative (· ^^^ · : UInt64 → UInt64 → UInt64) :=
    ⟨fun a b c => by rw [UInt64.xor_assoc, UInt64.xor_comm b c, ← UInt64.xor_assoc]⟩
  rw [hmap, hmap, h.foldl_eq]

omit [Digest] in
/-- Entries with the same fingerprints have the same hashes, if these depend on those. -/
theorem perm_hashes_of_perm {print : Value → Nat} {x y : List (UInt64 × Value × Value)}
    (hprint : (x.map fun entry => print entry.2.1).Perm (y.map fun entry => print entry.2.1))
    (hhash : ∀ e ∈ x ++ y, ∀ e' ∈ x ++ y, print e.2.1 = print e'.2.1 → e.1 = e'.1) :
    (x.map fun entry => entry.1).Perm (y.map fun entry => entry.1) := by
  classical
  let hashAt (n : Nat) : UInt64 :=
    if found : ∃ e ∈ x ++ y, print e.2.1 = n then found.choose.1 else 0
  have hat (e : UInt64 × Value × Value) (he : e ∈ x ++ y) : hashAt (print e.2.1) = e.1 := by
    have found : ∃ e' ∈ x ++ y, print e'.2.1 = print e.2.1 := ⟨e, he, rfl⟩
    simp only [hashAt, dif_pos found]
    exact hhash _ found.choose_spec.1 e he found.choose_spec.2
  have hmap (z : List (UInt64 × Value × Value)) (hz : ∀ e ∈ z, e ∈ x ++ y) :
      (z.map fun entry => entry.1) = (z.map fun entry => print entry.2.1).map hashAt := by
    rw [List.map_map]
    exact List.map_congr_left fun e he => (hat e (hz e he)).symm
  rw [hmap x fun e he => List.mem_append_left _ he, hmap y fun e he => List.mem_append_right _ he]
  exact hprint.map hashAt

theorem foldlM_eq_of_map_eq {print : Value → Nat} {hashPart : Value → Except Stop UInt64}
    {x y : List Value} (hprint : x.map print = y.map print)
    (hhash : ∀ p ∈ x, ∀ q ∈ y, print p = print q → hashPart p = hashPart q) (start : UInt64) :
    x.foldlM (fun acc item => do return Digest.pair acc (← hashPart item)) start =
      y.foldlM (fun acc item => do return Digest.pair acc (← hashPart item)) start := by
  induction x generalizing y start with
  | nil =>
      rw [List.map_nil, eq_comm, List.map_eq_nil_iff] at hprint
      rw [hprint]
  | cons p x ih =>
      cases y with
      | nil => cases hprint
      | cons q y =>
          obtain ⟨hhead, htail⟩ := List.cons.inj hprint
          rw [List.foldlM_cons, List.foldlM_cons,
            hhash p (List.mem_cons_self ..) q (List.mem_cons_self ..) hhead]
          congr 1
          funext acc
          exact ih htail (fun p hp q hq => hhash p (List.mem_cons_of_mem _ hp) q
            (List.mem_cons_of_mem _ hq)) acc

/-- What two tables have in common if fingerprints tell their keys apart as well as equality
does: no key is stored twice, and the hash of a key depends on its fingerprint. -/
structure Comparable (print : Value → Nat) (x y : ProbeTable) : Prop where
  nodup : (x.toList.map fun entry => print entry.2.1).Nodup
  nodup' : (y.toList.map fun entry => print entry.2.1).Nodup
  hash_eq : ∀ e ∈ x.toList ++ y.toList, ∀ e' ∈ x.toList ++ y.toList,
    print e.2.1 = print e'.2.1 → e.1 = e'.1

omit [Digest] in
/-- Tables with the same fingerprints have them in some order. -/
theorem Comparable.perm {print : Value → Nat} {x y : ProbeTable} (h : Comparable print x y)
    (hsame : (x.toList.map fun entry => print entry.2.1).toFinset =
      (y.toList.map fun entry => print entry.2.1).toFinset) :
    (x.toList.map fun entry => print entry.2.1).Perm
      (y.toList.map fun entry => print entry.2.1) := by
  rw [List.perm_ext_iff_of_nodup h.nodup h.nodup']
  intro n
  rw [← List.mem_toFinset, hsame, List.mem_toFinset]

def contentHash (hashPart : Value → Except Stop UInt64) : Content → Except Stop UInt64
  | .bytes _ data => .ok (Digest.bytes data)
  | .shorts data => .ok (Digest.shorts data)
  | .tuple items =>
    items.foldlM (fun acc item => do return Digest.pair acc (← hashPart item))
      (Digest.count items.length)
  | .set table =>
    .ok (table.toList.foldl (fun acc (hash, _, _) => acc ^^^ hash)
      (Digest.count table.toList.length))

/-- Contents of one form have one hash, if members of one fingerprint do. -/
theorem contentHash_eq_of_form_eq {print : Value → Nat} {hashPart : Value → Except Stop UInt64}
    {x y : Content} (hform : x.form print = y.form print)
    (hmembers : ∀ p ∈ x.members, ∀ q ∈ y.members, print p = print q → hashPart p = hashPart q)
    (htables : ∀ t t', x = .set t → y = .set t' → Comparable print t t') :
    contentHash hashPart x = contentHash hashPart y := by
  cases x with
  | bytes isText data =>
      cases y with
      | bytes isText' data' =>
          obtain ⟨_, hdata⟩ := Form.bytes.inj hform
          rw [contentHash, contentHash,
            List.map_injective_iff.mpr (fun _ _ => UInt8.toNat_inj.mp) hdata]
      | _ => cases hform
  | shorts data =>
      cases y with
      | shorts data' =>
          rw [contentHash, contentHash,
            List.map_injective_iff.mpr (fun _ _ => UInt16.toNat_inj.mp) (Form.shorts.inj hform)]
      | _ => cases hform
  | tuple items =>
      cases y with
      | tuple items' =>
          have hprint := Form.tuple.inj hform
          have hlength : items.length = items'.length := by
            simpa using congrArg List.length hprint
          rw [contentHash, contentHash, hlength]
          exact foldlM_eq_of_map_eq hprint hmembers _
      | _ => cases hform
  | set t =>
      cases y with
      | set t' =>
          have hcompare := htables t t' rfl rfl
          have hperm := hcompare.perm (Form.set.inj hform)
          have hlength := hperm.length_eq
          rw [List.length_map, List.length_map] at hlength
          rw [contentHash, contentHash, hlength,
            foldl_xor_perm _ (perm_hashes_of_perm hperm hcompare.hash_eq)]
      | _ => cases hform

/-- A hashable block is hashed by its content, and by identity if it has none. -/
theorem blockHash_eq_content {hashPart : Value → Except Stop UInt64} {v : Value} {block : Block}
    (hfits : block.body.fits block.header.kind = true) (hvalid : block.body.Valid)
    (hkind : block.header.kind.isHashable = true) :
    blockHash hashPart v block =
      block.content?.elim (.ok (Digest.word v.word)) (contentHash hashPart) := by
  rw [blockHash, if_pos hkind, Block.content?]
  cases hbody : block.body with
  | bytes seq =>
      have hnot : block.header.kind ≠ .sysObj := by
        intro hsys
        rw [hsys] at hkind
        cases hkind
      simp only [if_neg hnot]
      rfl
  | shorts seq => rfl
  | objects seq =>
      rw [hbody] at hvalid
      simp only [if_pos (Block.kind_of_objects hfits hbody hkind)]
      rw [Option.elim_some, contentHash, hvalid.length_toList]
  | hash table =>
      have hset := Block.kind_of_hash hfits hbody hkind
      rw [hbody] at hvalid
      rw [hbody, hset] at hfits
      simp only [Body.fits, Bool.not_eq_true'] at hfits
      simp only [hfits, Bool.false_eq_true, if_false]
      rw [Option.elim_some, contentHash, ← hvalid.1.size_eq]
  | _ => rfl

/-- The hash of a key that is no number. -/
theorem hashWithin_eq_content (hc : h.Coherent admits) {v : Value} (hv : h.Usable admits v)
    (hkey : h.Keyable v) (hn : h.number? v = .ok none) (depth : Nat) :
    h.hashWithin (depth + 1) v =
      (h.content? v).elim (.ok (Digest.word v.word)) (contentHash (h.hashWithin depth)) := by
  rw [hashWithin_succ, hn]
  cases hslot : v.slot? with
  | none =>
      rw [content?_inline hslot]
      rfl
  | some slot =>
      obtain ⟨block, hblock⟩ := hv.block? hslot
      have hfits := hc.fits slot block hblock
      simp only [hblock]
      rw [content?_block hslot hblock]
      exact blockHash_eq_content hfits (hc.valid slot block hblock)
        (hkey.isHashable hslot hblock hfits)

/-- Tables in a coherent heap can be compared, if members with the same fingerprint have the
same hash. -/
theorem Coherent.comparable_tables (hc : h.Coherent admits) {a b : Value} {x y : ProbeTable}
    (hx : h.content? a = some (.set x)) (hy : h.content? b = some (.set y))
    (hhash : ∀ p q, (p ∈ (Content.set x).members ∨ p ∈ (Content.set y).members) →
      (q ∈ (Content.set x).members ∨ q ∈ (Content.set y).members) →
      h.fingerprint p = h.fingerprint q → h.hashOf p = h.hashOf q) :
    Comparable h.fingerprint x y := by
  obtain ⟨s, A, _, hA, hA'⟩ := content?_eq_some hx
  obtain ⟨t, B, _, hB, hB'⟩ := content?_eq_some hy
  have hxkeyed := hc.keyed s A x hA (Block.content?_set hA').1
  have hykeyed := hc.keyed t B y hB (Block.content?_set hB').1
  have hstored (e : UInt64 × Value × Value) (he : e ∈ x.toList ++ y.toList) :
      h.hashOf e.2.1 = .ok e.1 ∧
        (e.2.1 ∈ (Content.set x).members ∨ e.2.1 ∈ (Content.set y).members) := by
    rcases List.mem_append.mp he with hmem | hmem
    · exact ⟨hxkeyed.hashed _ _ _ hmem, Or.inl (List.mem_map_of_mem hmem)⟩
    · exact ⟨hykeyed.hashed _ _ _ hmem, Or.inr (List.mem_map_of_mem hmem)⟩
  refine ⟨hxkeyed.distinct, hykeyed.distinct, fun e he e' he' heq => ?_⟩
  obtain ⟨hhash₁, hmem₁⟩ := hstored e he
  obtain ⟨hhash₂, hmem₂⟩ := hstored e' he'
  rw [hhash _ _ hmem₁ hmem₂ heq, hhash₂] at hhash₁
  exact (Except.ok.inj hhash₁).symm

/-- Keys with the same fingerprint have the same hash, at every sufficient depth. -/
theorem Coherent.hashWithin_eq_of_fingerprint_eq (hc : h.Coherent admits) {height : Nat → Nat}
    (hheight : h.HeightBy height)
    (hdepth : ∀ v, h.Usable admits v → Reaches height (h.slots.size + 1) v) {depth : Nat}
    {a b : Value} (ha : h.Keyable a) (hb : h.Keyable b) (hausable : h.Usable admits a)
    (hbusable : h.Usable admits b) (hadepth : Reaches height depth a)
    (hbdepth : Reaches height depth b) (hsame : h.fingerprint a = h.fingerprint b) :
    h.hashWithin depth a = h.hashWithin depth b := by
  induction depth generalizing a b with
  | zero => exact absurd hadepth.1 (Nat.lt_irrefl 0)
  | succ depth ih =>
      by_cases hab : a = b
      · rw [hab]
      obtain ⟨x, hx⟩ := ha.exists_number?
      obtain ⟨y, hy⟩ := hb.exists_number?
      rw [hc.fingerprint_eq_iff hausable hbusable] at hsame
      rcases cases_of_form_eq hab hx hy hsame with
        ⟨m, n, rfl, rfl, hform⟩ | ⟨rfl, rfl, c, d, hcontent, hcontent', hform⟩
      · rw [hashWithin_succ, hashWithin_succ, hx, hy]
        refine congrArg _ (numberHash_eq_of_form_eq (fun hword => ?_) hform)
        exact absurd (congrArg UInt64.toNat hword) (word_ne hab)
      rw [hashWithin_eq_content hc hausable ha hx, hashWithin_eq_content hc hbusable hb hy,
        hcontent, hcontent']
      -- members of either value are keys that the remaining depth suffices for
      have hmember (p : Value) (hp : p ∈ c.members ∨ p ∈ d.members) :
          h.Keyable p ∧ h.Usable admits p ∧ Reaches height depth p := by
        rcases hp with hp | hp
        · exact ⟨hc.keyable_member ha hcontent hp, hc.members_usable hcontent hp,
            hadepth.member hheight hcontent hp⟩
        · exact ⟨hc.keyable_member hb hcontent' hp, hc.members_usable hcontent' hp,
            hbdepth.member hheight hcontent' hp⟩
      have hmembers (p q : Value) (hp : p ∈ c.members ∨ p ∈ d.members)
          (hq : q ∈ c.members ∨ q ∈ d.members) (heq : h.fingerprint p = h.fingerprint q) :
          h.hashWithin depth p = h.hashWithin depth q := by
        obtain ⟨hpkey, hpusable, hpdepth⟩ := hmember p hp
        obtain ⟨hqkey, hqusable, hqdepth⟩ := hmember q hq
        exact ih hpkey hqkey hpusable hqusable hpdepth hqdepth heq
      refine contentHash_eq_of_form_eq hform
        (fun p hp q hq => hmembers p q (Or.inl hp) (Or.inr hq)) ?_
      rintro t t' rfl rfl
      refine hc.comparable_tables hcontent hcontent' fun p q hp hq heq => ?_
      have hdeep (w : Value) (hw : w ∈ (Content.set t).members ∨ w ∈ (Content.set t').members) :
          h.hashWithin depth w = h.hashOf w := by
        obtain ⟨_, husable, hreach⟩ := hmember w hw
        exact hashWithin_agree hc.agree_self (hc.rankedBy_of_height hheight) husable
          (hdepth w husable) hreach
      rw [← hdeep p hp, ← hdeep q hq]
      exact hmembers p q hp hq heq

/-- Keys with the same fingerprint have the same hash. -/
theorem Coherent.hashOf_eq_of_fingerprint_eq (hc : h.Coherent admits) {a b : Value}
    (ha : h.Keyable a) (hb : h.Keyable b) (hausable : h.Usable admits a)
    (hbusable : h.Usable admits b) (hsame : h.fingerprint a = h.fingerprint b) :
    h.hashOf a = h.hashOf b := by
  obtain ⟨height, hheight, hdepth⟩ := hc.exists_height
  exact hc.hashWithin_eq_of_fingerprint_eq hheight hdepth ha hb hausable hbusable
    (hdepth a hausable) (hdepth b hbusable) hsame

end Coherent

/-! ## Comparing -/

/-- Equality of blocks that are no numbers, from the equality of their parts. -/
def blockEquals (equal : Value → Value → Except Fault Bool) (a b : Block) : Except Fault Bool :=
  if comparable a.header.kind b.header.kind then
    match a.body, b.body with
    | .bytes x, .bytes y => .ok (x.toArray == y.toArray)
    | .shorts x, .shorts y => .ok (x.toArray == y.toArray)
    | .objects x, .objects y =>
      if a.header.kind != .tuple || x.len != y.len then .ok false
      else (x.toList.zip y.toList).reverse.allM fun (p, q) => equal p q
    | .hash x, .hash y =>
      if x.keepsValues || x.size != y.size then .ok false
      else x.toList.allM fun (hash, key, _) => do
        match ← y.probe hash fun k => equal k key with
        | .found _ => return true
        | _ => return false
    | _, _ => .ok false
  else .ok false

theorem equalWithin_numbers {h : Heap} {a b : Value} {x y : Number}
    (hx : h.number? a = .ok (some x)) (hy : h.number? b = .ok (some y)) (depth : Nat) :
    h.equalWithin (depth + 1) a b = .ok (decide (a = b) || x.equals y) := by
  rw [equalWithin]
  by_cases hab : a = b <;> simp [hab, hx, hy, bind, Except.bind, pure, Except.pure]

/-- A value word that is no reference equals no other word, unless both are numbers. -/
theorem equalWithin_inline {h : Heap} {a b : Value} {x y : Option Number}
    (hx : h.number? a = .ok x) (hy : h.number? b = .ok y) (hnumber : x = none ∨ y = none)
    (hinline : a.slot? = none ∨ b.slot? = none) (depth : Nat) :
    h.equalWithin (depth + 1) a b = .ok (decide (a = b)) := by
  rw [equalWithin]
  by_cases hab : a = b
  · simp [hab, pure, Except.pure]
  simp only [hab, hx, hy, bind, Except.bind, if_false, decide_false]
  rcases hnumber with rfl | rfl <;> rcases hinline with hslot | hslot <;> simp only [hslot]
  · cases y <;> rfl
  · cases y <;> cases a.slot? <;> rfl
  · cases x <;> rfl
  · cases x <;> cases a.slot? <;> rfl

theorem equalWithin_blocks {h : Heap} {a b : Value} {x y : Option Number}
    (hx : h.number? a = .ok x) (hy : h.number? b = .ok y) (hnumber : x = none ∨ y = none)
    {s t : Nat} {A B : Block} (hs : a.slot? = some s) (ht : b.slot? = some t)
    (hA : h.block? s = some A) (hB : h.block? t = some B) (depth : Nat) :
    h.equalWithin (depth + 1) a b =
      if a = b then .ok true else blockEquals (h.equalWithin depth) A B := by
  rw [equalWithin]
  by_cases hab : a = b
  · simp [hab, pure, Except.pure]
  simp only [hab, hx, hy, hs, ht, block_eq hA, block_eq hB, bind, Except.bind, if_false]
  split
  next heq =>
    rcases hnumber with rfl | rfl <;> cases heq
  next =>
    rw [blockEquals]
    cases comparable A.header.kind B.header.kind with
    | false => rfl
    | true => cases A.body <;> cases B.body <;> rfl

/-- Equality of contents, from the equality of their members. -/
def contentEquals (equal : Value → Value → Except Fault Bool) :
    Content → Content → Except Fault Bool
  | .bytes isText x, .bytes isText' y => .ok (decide (isText = isText' ∧ x = y))
  | .shorts x, .shorts y => .ok (decide (x = y))
  | .tuple x, .tuple y =>
    if x.length = y.length then (x.zip y).reverse.allM fun (p, q) => equal p q else .ok false
  | .set x, .set y =>
    if x.toList.length = y.toList.length then
      x.toList.allM fun (hash, key, _) => do
        match ← y.probe hash fun k => equal k key with
        | .found _ => return true
        | _ => return false
    else .ok false
  | _, _ => .ok false

/-- Blocks of bytes are comparable unless one of them is a system object, or just one a
string. -/
theorem comparable_bytes {a b : Kind} (ha : a.shape = .byteSequence)
    (hb : b.shape = .byteSequence) :
    comparable a b = true ↔ a ≠ .sysObj ∧ b ≠ .sysObj ∧ (a = .string ↔ b = .string) := by
  have hkinds {kind : Kind} (h : kind.shape = .byteSequence) :
      kind ∈ [Kind.string, .bytes, .byteArray, .buffer, .sysObj] := by
    cases kind <;> first | decide | cases h
  have hall : ∀ a ∈ [Kind.string, .bytes, .byteArray, .buffer, .sysObj],
      ∀ b ∈ [Kind.string, .bytes, .byteArray, .buffer, .sysObj],
        (comparable a b = true ↔ a ≠ .sysObj ∧ b ≠ .sysObj ∧ (a = .string ↔ b = .string)) := by
    decide
  exact hall a (hkinds ha) b (hkinds hb)

theorem comparable_shorts {a b : Kind} (ha : a.shape = .shortSequence)
    (hb : b.shape = .shortSequence) : comparable a b = true := by
  have hkinds {kind : Kind} (h : kind.shape = .shortSequence) :
      kind = .shorts ∨ kind = .shortArray := by
    cases kind <;> first | decide | cases h
  rcases hkinds ha with rfl | rfl <;> rcases hkinds hb with rfl | rfl <;> rfl

theorem comparable_objects {a b : Kind} (ha : a.shape = .objectSequence)
    (hb : b.shape = .objectSequence) : comparable a b = true ↔ a = b := by
  have hkinds {kind : Kind} (h : kind.shape = .objectSequence) : kind = .list ∨ kind = .tuple := by
    cases kind <;> first | decide | cases h
  rcases hkinds ha with rfl | rfl <;> rcases hkinds hb with rfl | rfl <;> decide

/-- Tables are comparable if both keep values or neither does. -/
theorem comparable_tables {a b : Kind} {x y : ProbeTable} (ha : (Body.hash x).fits a = true)
    (hb : (Body.hash y).fits b = true) :
    comparable a b = true ↔ x.keepsValues = y.keepsValues := by
  have hkinds {kind : Kind} {table : ProbeTable} (h : (Body.hash table).fits kind = true) :
      kind = .dict ∧ table.keepsValues = true ∨
        (kind = .set ∨ kind = .frozenSet) ∧ table.keepsValues = false := by
    cases kind <;> first | cases h | simpa [Body.fits] using h
  rcases hkinds ha with ⟨rfl, hx⟩ | ⟨rfl | rfl, hx⟩ <;>
    rcases hkinds hb with ⟨rfl, hy⟩ | ⟨rfl | rfl, hy⟩ <;> rw [hx, hy] <;> decide

/-- Equality of the contents of two blocks, if both have one. -/
def contentsEqual (equal : Value → Value → Except Fault Bool) (A B : Block) : Except Fault Bool :=
  match A.content?, B.content? with
  | some c, some d => contentEquals equal c d
  | _, _ => .ok false

section Blocks

variable {equal : Value → Value → Except Fault Bool} {A B : Block}

/-- Byte sequences are equal if both are text or neither is, and they have the same bytes. -/
theorem blockEquals_bytes {x y : BoundedSeq UInt8} (hx : A.body = .bytes x) (hy : B.body = .bytes y)
    (hA : A.header.kind.shape = .byteSequence) (hB : B.header.kind.shape = .byteSequence) :
    blockEquals equal A B = contentsEqual equal A B := by
  have hcomparable := comparable_bytes hA hB
  rw [blockEquals, contentsEqual, Block.content?, Block.content?, hx, hy]
  by_cases hsys : A.header.kind = .sysObj
  · rw [if_neg fun h => (hcomparable.mp h).1 hsys]
    simp [hsys]
  by_cases hsys' : B.header.kind = .sysObj
  · rw [if_neg fun h => (hcomparable.mp h).2.1 hsys']
    simp [hsys']
  simp only [hcomparable, hsys, hsys', ne_eq, not_false_eq_true, true_and, if_false,
    contentEquals, decide_eq_decide]
  split
  next htext =>
    simp only [htext, true_and, BoundedSeq.toList, Array.toList_inj]
    exact congrArg _ (by rw [Bool.eq_iff_iff, beq_iff_eq, decide_eq_true_iff])
  next htext => simp [htext]

theorem blockEquals_shorts {x y : BoundedSeq UInt16} (hx : A.body = .shorts x)
    (hy : B.body = .shorts y) (hA : A.header.kind.shape = .shortSequence)
    (hB : B.header.kind.shape = .shortSequence) :
    blockEquals equal A B = contentsEqual equal A B := by
  rw [blockEquals, contentsEqual, Block.content?, Block.content?, hx, hy,
    if_pos (comparable_shorts hA hB)]
  simp only [contentEquals, BoundedSeq.toList, Array.toList_inj]
  exact congrArg _ (by rw [Bool.eq_iff_iff, beq_iff_eq, decide_eq_true_iff])

/-- Tuples are compared item by item, and lists are equal to no other block. -/
theorem blockEquals_objects {x y : BoundedSeq Value} (hx : A.body = .objects x)
    (hy : B.body = .objects y) (hA : A.header.kind.shape = .objectSequence)
    (hB : B.header.kind.shape = .objectSequence) (hxvalid : x.Valid) (hyvalid : y.Valid) :
    blockEquals equal A B = contentsEqual equal A B := by
  have hcomparable := comparable_objects hA hB
  rw [blockEquals, contentsEqual, Block.content?, Block.content?, hx, hy]
  by_cases htuple : A.header.kind = .tuple
  · by_cases htuple' : B.header.kind = .tuple
    · rw [if_pos (hcomparable.mpr (htuple.trans htuple'.symm))]
      simp [htuple, htuple', contentEquals, hxvalid.length_toList, hyvalid.length_toList]
    · rw [if_neg fun h => htuple' ((hcomparable.mp h).symm.trans htuple)]
      simp [htuple']
  · simp [htuple]

/-- Sets are compared member by member, and dicts are equal to no other block. -/
theorem blockEquals_tables {x y : ProbeTable} (hx : A.body = .hash x) (hy : B.body = .hash y)
    (hA : (Body.hash x).fits A.header.kind = true) (hB : (Body.hash y).fits B.header.kind = true)
    (hxvalid : x.Valid) (hyvalid : y.Valid) :
    blockEquals equal A B = contentsEqual equal A B := by
  have hcomparable := comparable_tables hA hB
  rw [blockEquals, contentsEqual, Block.content?, Block.content?, hx, hy]
  cases hkeeps : x.keepsValues with
  | true => simp [hkeeps]
  | false =>
      cases hkeeps' : y.keepsValues with
      | true => simp [hcomparable, hkeeps, hkeeps']
      | false =>
          simp [hcomparable, hkeeps, hkeeps', contentEquals, ← hxvalid.size_eq, ← hyvalid.size_eq]

/-- Whether two payloads are of one form that is compared by content. -/
def sameForm : Body → Body → Bool
  | .bytes _, .bytes _ | .shorts _, .shorts _ | .objects _, .objects _ | .hash _, .hash _ => true
  | _, _ => false

/-- Payloads of different forms are equal neither as such nor by their contents. -/
theorem blockEquals_mixed (hforms : sameForm A.body B.body ≠ true) :
    blockEquals equal A B = contentsEqual equal A B := by
  rw [blockEquals, contentsEqual, Block.content?, Block.content?]
  cases hx : A.body with
  | bytes x | shorts x | objects x | hash x =>
      cases hy : B.body with
      | bytes y | shorts y | objects y | hash y =>
          first
          | exact absurd (by rw [hx, hy]; rfl) hforms
          | (dsimp only; split_ifs <;> rfl)
      | _ =>
          dsimp only
          split_ifs <;> rfl
  | _ => split <;> rfl

/-- Blocks are compared by their contents. -/
theorem blockEquals_eq_content (hA : A.body.fits A.header.kind = true)
    (hB : B.body.fits B.header.kind = true) (hAvalid : A.body.Valid) (hBvalid : B.body.Valid) :
    blockEquals equal A B = contentsEqual equal A B := by
  cases hx : A.body with
  | bytes x =>
      cases hy : B.body with
      | bytes y =>
          rw [hx] at hA
          rw [hy] at hB
          exact blockEquals_bytes hx hy (beq_iff_eq.mp hA) (beq_iff_eq.mp hB)
      | _ => exact blockEquals_mixed fun h => by rw [hx, hy] at h; cases h
  | shorts x =>
      cases hy : B.body with
      | shorts y =>
          rw [hx] at hA
          rw [hy] at hB
          exact blockEquals_shorts hx hy (beq_iff_eq.mp hA) (beq_iff_eq.mp hB)
      | _ => exact blockEquals_mixed fun h => by rw [hx, hy] at h; cases h
  | objects x =>
      cases hy : B.body with
      | objects y =>
          rw [hx] at hA hAvalid
          rw [hy] at hB hBvalid
          exact blockEquals_objects hx hy (beq_iff_eq.mp hA) (beq_iff_eq.mp hB) hAvalid hBvalid
      | _ => exact blockEquals_mixed fun h => by rw [hx, hy] at h; cases h
  | hash x =>
      cases hy : B.body with
      | hash y =>
          rw [hx] at hA hAvalid
          rw [hy] at hB hBvalid
          exact blockEquals_tables hx hy hA hB hAvalid.1 hBvalid.1
      | _ => exact blockEquals_mixed fun h => by rw [hx, hy] at h; cases h
  | _ => exact blockEquals_mixed fun h => by rw [hx] at h; cases h

end Blocks

theorem allM_zip_eq_decide {equal : Value → Value → Except Fault Bool} {print : Value → Nat}
    {x y : List Value} (hlength : x.length = y.length)
    (hequal : ∀ p ∈ x, ∀ q ∈ y, equal p q = .ok (decide (print p = print q))) :
    ((x.zip y).reverse.allM fun (p, q) => equal p q) =
      .ok (decide (x.map print = y.map print)) := by
  have hpairs : ∀ pair ∈ (x.zip y).reverse,
      equal pair.1 pair.2 = .ok (decide (print pair.1 = print pair.2)) := by
    intro pair hpair
    obtain ⟨hp, hq⟩ := List.of_mem_zip (List.mem_reverse.mp hpair)
    exact hequal pair.1 hp pair.2 hq
  rw [allM_eq_decide hpairs]
  refine congrArg _ (decide_eq_decide.mpr ?_)
  rw [← List.forall₂_eq_eq_eq, List.forall₂_map_left_iff, List.forall₂_map_right_iff,
    List.forall₂_iff_zip]
  exact ⟨fun hall => ⟨hlength, fun hpq => hall _ (List.mem_reverse.mpr hpq)⟩,
    fun hall pair hpair => hall.2 (List.mem_reverse.mp hpair)⟩

/-- The members of one set are all found in another, if their fingerprints are. -/
theorem allM_probe_eq_decide {equal : Value → Value → Except Fault Bool} {print : Value → Nat}
    {x y : ProbeTable} (hy : y.Valid) (hcompare : Comparable print x y)
    (hequal : ∀ p ∈ (Content.set x).members, ∀ q ∈ (Content.set y).members,
      equal q p = .ok (decide (print q = print p))) :
    (x.toList.allM fun (hash, key, _) => do
        match ← y.probe hash fun k => equal k key with
        | .found _ => return true
        | _ => return false) =
      .ok (decide (∀ entry ∈ x.toList,
        print entry.2.1 ∈ y.toList.map fun entry => print entry.2.1)) := by
  refine allM_eq_decide fun (hash, key, value) hentry => ?_
  have htest (k v : Value) (hk : (hash, k, v) ∈ y.toList) :
      equal k key = .ok (decide (print k = print key)) :=
    hequal key (List.mem_map_of_mem hentry) k (List.mem_map_of_mem hk)
  obtain ⟨answer, hanswer, hspec⟩ := ProbeTable.probe_spec hy htest
  -- an entry with the same fingerprint would have been met, since its hash is the same
  have hmissing (hlacks : y.Lacks hash fun k => decide (print k = print key)) :
      print key ∉ y.toList.map fun entry => print entry.2.1 := by
    intro hmem
    obtain ⟨⟨hash', k, v⟩, hk, hsame⟩ := List.mem_map.mp hmem
    have hhash : hash' = hash := hcompare.hash_eq (hash', k, v) (List.mem_append_right _ hk)
      (hash, key, value) (List.mem_append_left _ hentry) hsame
    subst hhash
    exact of_decide_eq_false (hlacks k v hk) hsame
  simp only [hanswer]
  cases answer with
  | found index =>
      obtain ⟨k, v, hk, hsame⟩ := hspec
      have hmem : print key ∈ y.toList.map fun entry => print entry.2.1 :=
        List.mem_map.mpr
          ⟨(hash, k, v), ProbeTable.mem_toList.mpr ⟨index, hk⟩, of_decide_eq_true hsame⟩
      exact congrArg Except.ok (decide_eq_true hmem).symm
  | vacant index => exact congrArg Except.ok (decide_eq_false (hmissing hspec.2.2)).symm
  | full => exact congrArg Except.ok (decide_eq_false (hmissing hspec.2)).symm

/-- Of two tables of one size, the fingerprints are the same if those of the first are among
those of the second. -/
theorem Comparable.toFinset_eq_iff {print : Value → Nat} {x y : ProbeTable}
    (h : Comparable print x y) (hlength : x.toList.length = y.toList.length) :
    (x.toList.map fun entry => print entry.2.1).toFinset =
        (y.toList.map fun entry => print entry.2.1).toFinset ↔
      ∀ entry ∈ x.toList, print entry.2.1 ∈ y.toList.map fun entry => print entry.2.1 := by
  constructor
  · intro heq entry hentry
    rw [← List.mem_toFinset, ← heq, List.mem_toFinset]
    exact List.mem_map_of_mem hentry
  · intro hall
    refine Finset.eq_of_subset_of_card_le (fun n hn => ?_) ?_
    · obtain ⟨entry, hentry, rfl⟩ := List.mem_map.mp (List.mem_toFinset.mp hn)
      exact List.mem_toFinset.mpr (hall entry hentry)
    · rw [List.toFinset_card_of_nodup h.nodup, List.toFinset_card_of_nodup h.nodup',
        List.length_map, List.length_map, hlength]

/-- Contents are equal if they have the same form. -/
theorem contentEquals_eq_decide {equal : Value → Value → Except Fault Bool} {print : Value → Nat}
    {x y : Content}
    (hequal : ∀ p ∈ x.members, ∀ q ∈ y.members,
      equal p q = .ok (decide (print p = print q)) ∧ equal q p = .ok (decide (print q = print p)))
    (htables : ∀ t t', x = .set t → y = .set t' → t'.Valid ∧ Comparable print t t') :
    contentEquals equal x y = .ok (decide (x.form print = y.form print)) := by
  cases x with
  | bytes isText data =>
      cases y with
      | bytes isText' data' =>
          have hinj := List.map_injective_iff.mpr fun (_ _ : UInt8) => UInt8.toNat_inj.mp
          simp only [contentEquals, Content.form, Form.bytes.injEq, hinj.eq_iff]
      | _ => rfl
  | shorts data =>
      cases y with
      | shorts data' =>
          have hinj := List.map_injective_iff.mpr fun (_ _ : UInt16) => UInt16.toNat_inj.mp
          simp only [contentEquals, Content.form, Form.shorts.injEq, hinj.eq_iff]
      | _ => rfl
  | tuple items =>
      cases y with
      | tuple items' =>
          simp only [contentEquals, Content.form, Form.tuple.injEq]
          split
          next hlength =>
            exact allM_zip_eq_decide hlength fun p hp q hq => (hequal p hp q hq).1
          next hlength =>
            refine congrArg _ (decide_eq_false fun heq => hlength ?_).symm
            simpa using congrArg List.length heq
      | _ => rfl
  | set t =>
      cases y with
      | set t' =>
          obtain ⟨hvalid, hcompare⟩ := htables t t' rfl rfl
          simp only [contentEquals, Content.form, Form.set.injEq]
          split
          next hlength =>
            rw [allM_probe_eq_decide hvalid hcompare fun p hp q hq => (hequal p hp q hq).2]
            exact congrArg _ (decide_eq_decide.mpr (hcompare.toFinset_eq_iff hlength).symm)
          next hlength =>
            refine congrArg _ (decide_eq_false fun heq => hlength ?_).symm
            simpa using (hcompare.perm heq).length_eq
      | _ => rfl

/-! ## Equality of values -/

section Equality

variable [Digest] {admits : Value → Prop} {h : Heap}

/-- Values that can be read, with the values inside them. -/
structure Legible (admits : Value → Prop) (h : Heap) (among : Value → Prop) : Prop where
  usable : ∀ v, among v → h.Usable admits v
  number? : ∀ v, among v → ∃ n, h.number? v = .ok n
  closed : ∀ v content w, among v → h.content? v = some content → w ∈ content.members → among w

omit [Digest] in
theorem content?_of_number {v : Value} {n : Number} (hn : h.number? v = .ok (some n)) :
    h.content? v = none := by
  cases hslot : v.slot? with
  | none => exact content?_inline hslot
  | some slot =>
      cases hblock : h.block? slot with
      | none => rw [content?, hslot, Option.bind_some, hblock, Option.bind_none]
      | some block =>
          rw [number?_ref hslot hblock] at hn
          rw [content?_block hslot hblock, Block.content?]
          cases hbody : block.body <;> first | rfl | (rw [hbody] at hn; cases hn)

omit [Digest] in
/-- A value equals itself. -/
theorem equalWithin_self (a : Value) (depth : Nat) : h.equalWithin (depth + 1) a a = .ok true := by
  rw [equalWithin]
  simp [pure, Except.pure]

/-- Values that are no numbers are compared by content. -/
theorem Coherent.equalWithin_eq_content (hc : h.Coherent admits) {a b : Value} (hab : a ≠ b)
    (ha : h.Usable admits a) (hb : h.Usable admits b) {x y : Option Number}
    (hx : h.number? a = .ok x) (hy : h.number? b = .ok y) (hnumber : x = none ∨ y = none)
    (depth : Nat) :
    h.equalWithin (depth + 1) a b =
      match h.content? a, h.content? b with
      | some c, some d => contentEquals (h.equalWithin depth) c d
      | _, _ => .ok false := by
  by_cases hinline : a.slot? = none ∨ b.slot? = none
  · rw [equalWithin_inline hx hy hnumber hinline, decide_eq_false hab]
    rcases hinline with hslot | hslot <;> rw [content?_inline hslot]
    cases h.content? a <;> rfl
  obtain ⟨s, hs⟩ := Option.ne_none_iff_exists'.mp fun hnone => hinline (Or.inl hnone)
  obtain ⟨t, ht⟩ := Option.ne_none_iff_exists'.mp fun hnone => hinline (Or.inr hnone)
  obtain ⟨A, hA⟩ := ha.block? hs
  obtain ⟨B, hB⟩ := hb.block? ht
  rw [equalWithin_blocks hx hy hnumber hs ht hA hB, if_neg hab, content?_block hs hA,
    content?_block ht hB]
  exact blockEquals_eq_content (hc.fits s A hA) (hc.fits t B hB) (hc.valid s A hA)
    (hc.valid t B hB)

omit [Digest] in
theorem number?_of_content? {v : Value} {n : Option Number} {content : Content}
    (hn : h.number? v = .ok n) (hcontent : h.content? v = some content) :
    h.number? v = .ok none := by
  cases n with
  | none => exact hn
  | some n => cases (content?_of_number hn).symm.trans hcontent

/-- Different values that are not both numbers have contents if they have the same fingerprint:
there is nothing else that they could have in common. -/
theorem Coherent.fingerprint_ne_of_content? (hc : h.Coherent admits) {a b : Value} (hab : a ≠ b)
    (ha : h.Usable admits a) (hb : h.Usable admits b) {x y : Option Number}
    (hx : h.number? a = .ok x) (hy : h.number? b = .ok y) (hnumber : x = none ∨ y = none)
    (hnone : h.content? a = none ∨ h.content? b = none) : h.fingerprint a ≠ h.fingerprint b := by
  rw [Ne, hc.fingerprint_eq_iff ha hb]
  intro heq
  rcases cases_of_form_eq hab hx hy heq with
    ⟨m, n, rfl, rfl, _⟩ | ⟨_, _, c, d, hcontent, hcontent', _⟩
  · simp at hnumber
  · simp [hcontent, hcontent'] at hnone

/-- The tables of two sets can be compared. -/
theorem Coherent.comparable_sets (hc : h.Coherent admits) {a b : Value} {t t' : ProbeTable}
    (hcontent : h.content? a = some (.set t)) (hcontent' : h.content? b = some (.set t')) :
    t'.Valid ∧ Comparable h.fingerprint t t' := by
  refine ⟨?_, hc.comparable_tables hcontent hcontent' fun p q hp hq heq => ?_⟩
  · obtain ⟨slot, block, _, hblock, hfound⟩ := content?_eq_some hcontent'
    have hvalid := hc.valid slot block hblock
    rw [(Block.content?_set hfound).1] at hvalid
    exact hvalid.1
  · have hkey (w : Value) (hw : w ∈ (Content.set t).members ∨ w ∈ (Content.set t').members) :
        h.Keyable w ∧ h.Usable admits w := by
      rcases hw with hw | hw
      · exact ⟨hc.keyable_of_mem_set hcontent hw, hc.members_usable hcontent hw⟩
      · exact ⟨hc.keyable_of_mem_set hcontent' hw, hc.members_usable hcontent' hw⟩
    exact hc.hashOf_eq_of_fingerprint_eq (hkey p hp).1 (hkey q hq).1 (hkey p hp).2 (hkey q hq).2 heq

/-- Contents are equal if their values have the same fingerprint, provided that this is so of
their members. -/
theorem Coherent.contentEquals_eq (hc : h.Coherent admits) {a b : Value}
    (ha : h.Usable admits a) (hb : h.Usable admits b) {x y : Option Number}
    (hx : h.number? a = .ok x) (hy : h.number? b = .ok y) {c d : Content}
    (hcontent : h.content? a = some c) (hcontent' : h.content? b = some d)
    {equal : Value → Value → Except Fault Bool}
    (hequal : ∀ p ∈ c.members, ∀ q ∈ d.members,
      equal p q = .ok (decide (h.fingerprint p = h.fingerprint q)) ∧
      equal q p = .ok (decide (h.fingerprint q = h.fingerprint p))) :
    contentEquals equal c d = .ok (decide (h.fingerprint a = h.fingerprint b)) := by
  have hforms : h.fingerprint a = h.fingerprint b ↔
      c.form h.fingerprint = d.form h.fingerprint := by
    rw [hc.fingerprint_eq_iff ha hb, form_content (number?_of_content? hx hcontent),
      form_content (number?_of_content? hy hcontent'), hcontent, hcontent']
    rfl
  rw [decide_eq_decide.mpr hforms]
  refine contentEquals_eq_decide hequal ?_
  rintro t t' rfl rfl
  exact hc.comparable_sets hcontent hcontent'

/-- Different numbers are compared by their amounts. -/
theorem Coherent.equalWithin_eq_of_numbers (hc : h.Coherent admits) {a b : Value} (hab : a ≠ b)
    (ha : h.Usable admits a) (hb : h.Usable admits b) {x y : Number}
    (hx : h.number? a = .ok (some x)) (hy : h.number? b = .ok (some y)) (depth : Nat) :
    h.equalWithin (depth + 1) a b = .ok (decide (h.fingerprint a = h.fingerprint b)) := by
  have hne : a.word ≠ b.word := fun heq => word_ne hab (congrArg UInt64.toNat heq)
  rw [equalWithin_numbers hx hy]
  refine congrArg _ (Bool.eq_iff_iff.mpr ?_)
  rw [decide_eq_true_iff, hc.fingerprint_eq_iff ha hb, form_number hx, form_number hy,
    Number.form_eq_iff fun heq => absurd heq hne]
  simp [hab, hne]

/-- A value is equal to those with its fingerprint, at every sufficient depth. -/
theorem Legible.equalWithin_eq {among : Value → Prop} (hl : h.Legible admits among)
    (hc : h.Coherent admits) {height : Nat → Nat} (hheight : h.HeightBy height) {depth : Nat}
    {a b : Value} (ha : among a) (hb : among b) (hadepth : Reaches height depth a)
    (hbdepth : Reaches height depth b) :
    h.equalWithin depth a b = .ok (decide (h.fingerprint a = h.fingerprint b)) := by
  induction depth generalizing a b with
  | zero => exact absurd hadepth.1 (Nat.lt_irrefl 0)
  | succ depth ih =>
      by_cases hab : a = b
      · rw [hab, equalWithin_self, decide_eq_true rfl]
      have hausable := hl.usable a ha
      have hbusable := hl.usable b hb
      obtain ⟨x, hx⟩ := hl.number? a ha
      obtain ⟨y, hy⟩ := hl.number? b hb
      by_cases hnumber : x = none ∨ y = none
      · have hdiffer := hc.fingerprint_ne_of_content? hab hausable hbusable hx hy hnumber
        rw [hc.equalWithin_eq_content hab hausable hbusable hx hy hnumber]
        cases hcontent : h.content? a with
        | none => rw [decide_eq_false (hdiffer (Or.inl hcontent))]
        | some c =>
            cases hcontent' : h.content? b with
            | none => rw [decide_eq_false (hdiffer (Or.inr hcontent'))]
            | some d =>
                refine hc.contentEquals_eq hausable hbusable hx hy hcontent hcontent'
                  fun p hp q hq => ?_
                have hp' := hl.closed a c p ha hcontent hp
                have hq' := hl.closed b d q hb hcontent' hq
                have hpdepth := hadepth.member hheight hcontent hp
                have hqdepth := hbdepth.member hheight hcontent' hq
                exact ⟨ih hp' hq' hpdepth hqdepth, ih hq' hp' hqdepth hpdepth⟩
      · obtain ⟨x, rfl⟩ := Option.ne_none_iff_exists'.mp fun hnone => hnumber (Or.inl hnone)
        obtain ⟨y, rfl⟩ := Option.ne_none_iff_exists'.mp fun hnone => hnumber (Or.inr hnone)
        exact hc.equalWithin_eq_of_numbers hab hausable hbusable hx hy depth

/-- A value is equal to those with its fingerprint. -/
theorem Legible.valuesEqual_eq {among : Value → Prop} (hl : h.Legible admits among)
    (hc : h.Coherent admits) {a b : Value} (ha : among a) (hb : among b) :
    h.valuesEqual a b = .ok (decide (h.fingerprint a = h.fingerprint b)) := by
  obtain ⟨height, hheight, hdepth⟩ := hc.exists_height
  have hdeep (v : Value) (hv : among v) :
      Reaches height (h.slots.size * h.slots.size + 1) v :=
    (hdepth v (hl.usable v hv)).mono (Nat.succ_le_succ (Nat.le_mul_self _))
  exact hl.equalWithin_eq hc hheight ha hb (hdeep a ha) (hdeep b hb)

/-- Usable keys can be read, with the values inside them. -/
theorem Coherent.legible_keys (hc : h.Coherent admits) :
    h.Legible admits fun v => h.Usable admits v ∧ h.Keyable v :=
  ⟨fun _ hv => hv.1, fun _ hv => hv.2.exists_number?, fun _ _ _ hv hcontent hw =>
    ⟨hc.members_usable hcontent hw, hc.keyable_member hv.2 hcontent hw⟩⟩

/-- Keys are equal if they have the same fingerprint. -/
theorem Coherent.valuesEqual_keys (hc : h.Coherent admits) {a b : Value} (ha : h.Keyable a)
    (hb : h.Keyable b) (hausable : h.Usable admits a) (hbusable : h.Usable admits b) :
    h.valuesEqual a b = .ok (decide (h.fingerprint a = h.fingerprint b)) :=
  hc.legible_keys.valuesEqual_eq hc ⟨hausable, ha⟩ ⟨hbusable, hb⟩

end Equality

end Heap

end ObjectHeap
