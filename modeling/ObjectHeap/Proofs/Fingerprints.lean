import Mathlib.Data.Finset.Card
import Mathlib.Logic.Equiv.Finset
import Mathlib.Tactic.Common
import Mathlib.Tactic.DeriveEncodable
import Mathlib.Tactic.Ring
import ObjectHeap.Heap.Basic

/-! # Fingerprints

A *fingerprint* is a number that stands for a value up to equality. Numbers are brought to one
form, texts and sequences of bytes or units stand for their contents, tuples for the
fingerprints of their elements in order, and sets for those of their members in no order.
Everything else stands for itself.
-/

namespace ObjectHeap

/-- What a value is up to equality, with fingerprints for the values inside it. -/
inductive Form where
  | int (n : Int)
  | float (bits : Nat)
  | bytes (isText : Bool) (data : List Nat)
  | shorts (data : List Nat)
  | tuple (items : List Nat)
  | set (members : Finset Nat)
  | itself (word : Nat)
deriving DecidableEq, Encodable

/-! ## Numbers -/

namespace Binary64

theorem fraction_lt (x : Binary64) : x.fraction < 2 ^ 52 := by
  rw [fraction, UInt64.toNat_mod]
  exact Nat.mod_lt _ (by decide)

/-- The bits of a float are its sign, its exponent and its fraction. -/
theorem bits_toNat (x : Binary64) :
    x.bits.toNat =
      (if x.isNegative then 2 ^ 63 else 0) + x.exponent * 2 ^ 52 + x.fraction := by
  have hlt := x.bits.toNat_lt
  simp only [isNegative, exponent, fraction, UInt64.le_iff_toNat_le, UInt64.toNat_mod,
    UInt64.toNat_div, UInt64.reduceToNat, decide_eq_true_eq]
  split <;> omega

/-- The magnitude in steps, with the hidden bit of normal floats written out. -/
theorem magnitude_eq (x : Binary64) :
    x.magnitude =
      if x.exponent = 0 then x.fraction else (2 ^ 52 + x.fraction) * 2 ^ (x.exponent - 1) := by
  simp only [magnitude, beq_iff_eq, Nat.shiftLeft_eq]
  rfl

/-- A larger exponent makes up for every fraction. -/
theorem magnitude_lt {x y : Binary64} (h : x.exponent < y.exponent) :
    x.magnitude < y.magnitude := by
  have hx := x.fraction_lt
  have hpos : 0 < 2 ^ (y.exponent - 1) := Nat.two_pow_pos _
  have hy : 2 ^ 52 * 2 ^ (y.exponent - 1) ≤ y.magnitude := by
    rw [magnitude_eq, if_neg (by omega)]
    exact Nat.mul_le_mul_right _ (Nat.le_add_right ..)
  refine Nat.lt_of_lt_of_le ?_ hy
  rw [magnitude_eq]
  split
  next =>
    calc x.fraction < 2 ^ 52 := hx
      _ ≤ 2 ^ 52 * 2 ^ (y.exponent - 1) := Nat.le_mul_of_pos_right _ hpos
  next hzero =>
    calc (2 ^ 52 + x.fraction) * 2 ^ (x.exponent - 1)
        < (2 ^ 52 * 2) * 2 ^ (x.exponent - 1) :=
          Nat.mul_lt_mul_of_pos_right (by omega) (Nat.two_pow_pos _)
      _ = 2 ^ 52 * 2 ^ (x.exponent - 1 + 1) := by ring
      _ ≤ 2 ^ 52 * 2 ^ (y.exponent - 1) :=
          Nat.mul_le_mul_left _ (Nat.pow_le_pow_right (by decide) (by omega))

/-- Magnitudes of two exponents lie in ranges that are apart. -/
theorem exponent_eq_of_magnitude_eq {x y : Binary64} (h : x.magnitude = y.magnitude) :
    x.exponent = y.exponent := by
  rcases Nat.lt_trichotomy x.exponent y.exponent with hlt | heq | hlt
  · exact absurd h (Nat.ne_of_lt (magnitude_lt hlt))
  · exact heq
  · exact absurd h (Nat.ne_of_gt (magnitude_lt hlt))

/-- Within one exponent, a magnitude determines the fraction. -/
theorem fraction_eq_of_magnitude_eq {x y : Binary64} (h : x.magnitude = y.magnitude) :
    x.fraction = y.fraction := by
  have hexponent := exponent_eq_of_magnitude_eq h
  rw [magnitude_eq, magnitude_eq, hexponent] at h
  split at h
  · exact h
  · exact Nat.add_left_cancel (Nat.eq_of_mul_eq_mul_right (Nat.two_pow_pos _) h)

/-- The size in steps tells all numbers apart but the two zeros. -/
theorem eq_of_steps_eq {x y : Binary64} (h : x.steps = y.steps) (hzero : x.steps ≠ 0) :
    x = y := by
  have hsign : x.isNegative = y.isNegative ∧ x.magnitude = y.magnitude := by
    rw [steps, steps] at h
    rw [steps] at hzero
    cases hx : x.isNegative <;> cases hy : y.isNegative <;>
      simp only [hx, hy, if_true, Bool.false_eq_true, if_false] at h hzero <;>
      simp <;> omega
  obtain ⟨hneg, hmag⟩ := hsign
  have hbits : x.bits.toNat = y.bits.toNat := by
    rw [bits_toNat, bits_toNat, hneg, exponent_eq_of_magnitude_eq hmag,
      fraction_eq_of_magnitude_eq hmag]
  cases x
  cases y
  exact congrArg _ (UInt64.toNat_inj.mp hbits)

theorem unit_cast_pos : (0 : Int) < unit := by
  rw [unit, Nat.one_shiftLeft]
  exact_mod_cast Nat.two_pow_pos 1074

/-- A float is exactly an integer if it is a whole number of units in range. -/
theorem exactInt?_eq_some {x : Binary64} {n : Int64} :
    x.exactInt? = some n ↔ x.isNaN = false ∧ x.steps = n.toInt * unit := by
  have hunit := unit_cast_pos
  rw [exactInt?]
  constructor
  · intro h
    simp only [Option.ite_none_right_eq_some, Bool.and_eq_true, Bool.not_eq_true', beq_iff_eq,
      decide_eq_true_eq, Option.some.injEq] at h
    obtain ⟨⟨⟨⟨hnan, hrest⟩, hlow⟩, hhigh⟩, rfl⟩ := h
    rw [Int64.toInt_minValue] at hlow
    rw [Int64.toInt_maxValue] at hhigh
    rw [Int64.toInt_ofInt_of_le hlow (by omega)]
    exact ⟨hnan, (Int.ediv_mul_cancel (Int.dvd_of_emod_eq_zero hrest)).symm⟩
  · rintro ⟨hnan, hsteps⟩
    have hwhole : x.steps / unit = n.toInt := by
      rw [hsteps, Int.mul_ediv_cancel _ (Int.ne_of_gt hunit)]
    have hrest : x.steps % unit = 0 := by rw [hsteps, Int.mul_emod_left]
    simp only [hwhole, hrest, hnan, Int64.minValue_le_toInt, Int64.toInt_le, Int64.ofInt_toInt]
    rfl

/-- Equal floats are the same, unless they are whole. -/
theorem eq_iff_of_not_exact {x y : Binary64} (hx : x.exactInt? = none) (hnan : x.isNaN = false)
    (hnan' : y.isNaN = false) : x.eq y = true ↔ x = y := by
  simp only [eq, hnan, hnan', Bool.not_false, Bool.true_and, beq_iff_eq]
  refine ⟨fun h => eq_of_steps_eq h fun hzero => ?_, fun h => h ▸ rfl⟩
  have hexact : x.exactInt? = some 0 := by
    rw [exactInt?_eq_some, hzero]
    exact ⟨hnan, (Int.zero_mul _).symm⟩
  rw [hx] at hexact
  cases hexact

end Binary64

namespace Number

/-- The form of a number in a value word: an integer if it equals one, and else a float. A NaN
is only equal to itself. -/
def form (word : UInt64) (n : Number) : Form :=
  match n.exactInt? with
  | some i => .int i.toInt
  | none => if n.toBinary64.isNaN then .itself word.toNat else .float n.toBinary64.bits.toNat

/-- Numbers that are exactly integers are equal if the integers are. -/
theorem equals_of_exact {x y : Number} {m n : Int64} (hx : x.exactInt? = some m)
    (hy : y.exactInt? = some n) : x.equals y = true ↔ m = n := by
  cases x with
  | int m' =>
      cases hx
      cases y with
      | int n' =>
          cases hy
          exact beq_iff_eq
      | float y =>
          change y.exactInt? = some n at hy
          rw [equals, hy, beq_iff_eq, Option.some_inj]
          exact eq_comm
  | float x =>
      change x.exactInt? = some m at hx
      cases y with
      | int n' =>
          cases hy
          simp [equals, hx]
      | float y =>
          obtain ⟨hnan, hm⟩ := Binary64.exactInt?_eq_some.mp hx
          obtain ⟨hnan', hn⟩ := Binary64.exactInt?_eq_some.mp hy
          simp only [equals, Binary64.eq, hnan, hnan', hm, hn, Bool.not_false, Bool.true_and,
            beq_iff_eq]
          rw [← Int64.toInt_inj]
          exact mul_left_inj' (Int.ne_of_gt Binary64.unit_cast_pos)

theorem equals_comm (x y : Number) : x.equals y = y.equals x := by
  cases x <;> cases y
  · exact Bool.beq_comm
  · rfl
  · rfl
  · rename_i x y
    simp only [equals, Binary64.eq, Bool.and_comm (!x.isNaN), Bool.beq_comm (a := x.steps)]

/-- A number that is exactly an integer equals no number that is not. -/
theorem not_equals_of_exact {x y : Number} {m : Int64} (hx : x.exactInt? = some m)
    (hy : y.exactInt? = none) : x.equals y = false := by
  cases y with
  | int n => cases hy
  | float y =>
      change y.exactInt? = none at hy
      cases x with
      | int m' => simp [equals, hy]
      | float x =>
          rw [← Bool.not_eq_true]
          intro h
          simp only [equals, Binary64.eq, Bool.and_eq_true, Bool.not_eq_true', beq_iff_eq] at h
          obtain ⟨⟨_, hnan⟩, hsteps⟩ := h
          have hexact : y.exactInt? = some m := by
            rw [Binary64.exactInt?_eq_some, ← hsteps]
            exact ⟨hnan, (Binary64.exactInt?_eq_some.mp hx).2⟩
          rw [hy] at hexact
          cases hexact

/-- Floats that are no integers have one form if they are one word or equal floats. -/
theorem form_eq_iff_of_not_exact {a b : UInt64} {x y : Binary64} (hx : x.exactInt? = none)
    (hy : y.exactInt? = none) (hsame : a = b → x = y) :
    (float x).form a = (float y).form b ↔ a = b ∨ x.eq y = true := by
  have hform (word : UInt64) {z : Binary64} (hz : z.exactInt? = none) :
      (float z).form word =
        if z.isNaN = true then .itself word.toNat else .float z.bits.toNat := by
    rw [form, exactInt?, hz]
    rfl
  rw [hform a hx, hform b hy]
  by_cases hnan : x.isNaN = true
  · have hnever : x.eq y = false := by simp [Binary64.eq, hnan]
    rw [if_pos hnan]
    split
    next => simp [hnever, UInt64.toNat_inj]
    next hnan' =>
      have hne : a ≠ b := fun hword => hnan' (hsame hword ▸ hnan)
      simp [hnever, hne]
  · rw [if_neg hnan]
    split
    next hnan' =>
      have hnever : x.eq y = false := by simp [Binary64.eq, hnan']
      have hne : a ≠ b := fun hword => hnan (hsame hword ▸ hnan')
      simp [hnever, hne]
    next hnan' =>
      rw [Binary64.eq_iff_of_not_exact hx (Bool.eq_false_iff.mpr hnan)
        (Bool.eq_false_iff.mpr hnan'), Form.float.injEq, UInt64.toNat_inj]
      refine ⟨fun hbits => Or.inr ?_, fun h => congrArg _ (h.elim hsame id)⟩
      cases x
      exact congrArg _ hbits

/-- Two number words have one form if they are the same or numerically equal. -/
theorem form_eq_iff {a b : UInt64} {x y : Number} (hsame : a = b → x = y) :
    x.form a = y.form b ↔ a = b ∨ x.equals y = true := by
  cases hx : x.exactInt? with
  | some m =>
      cases hy : y.exactInt? with
      | some n =>
          simp only [form, hx, hy, Form.int.injEq, equals_of_exact hx hy, Int64.toInt_inj]
          refine ⟨Or.inr, Or.rec (fun hword => ?_) id⟩
          rw [← hsame hword, hx] at hy
          exact Option.some_inj.mp hy
      | none =>
          have hne : a ≠ b := by
            rintro rfl
            rw [← hsame rfl, hx] at hy
            cases hy
          simp only [form, hx, hy, not_equals_of_exact hx hy, hne]
          split <;> simp
  | none =>
      cases hy : y.exactInt? with
      | some n =>
          have hne : a ≠ b := by
            rintro rfl
            rw [← hsame rfl, hx] at hy
            cases hy
          simp only [form, hx, hy, equals_comm x, not_equals_of_exact hy hx, hne]
          split <;> simp
      | none =>
          cases x with
          | int => cases hx
          | float x =>
              cases y with
              | int => cases hy
              | float y =>
                  exact form_eq_iff_of_not_exact hx hy fun hword => Number.float.inj (hsame hword)

end Number

/-! ## Blocks -/

/-- What a block is compared by: its bytes, its units, its elements or its members. -/
inductive Content where
  | bytes (isText : Bool) (data : List UInt8)
  | shorts (data : List UInt16)
  | tuple (items : List Value)
  | set (table : ProbeTable)

namespace Content

/-- The values that a comparison goes down to. -/
def members : Content → List Value
  | .tuple items => items
  | .set table => table.toList.map fun entry => entry.2.1
  | _ => []

/-- The form of a content, from the fingerprints of its members. -/
def form (print : Value → Nat) : Content → Form
  | .bytes isText data => .bytes isText (data.map UInt8.toNat)
  | .shorts data => .shorts (data.map UInt16.toNat)
  | .tuple items => .tuple (items.map print)
  | .set table => .set (table.toList.map fun entry => print entry.2.1).toFinset

/-- The form of a content depends on the fingerprints of its members only. -/
theorem form_congr {print print' : Value → Nat} {content : Content}
    (h : ∀ w ∈ content.members, print' w = print w) :
    content.form print' = content.form print := by
  cases content with
  | tuple items => exact congrArg _ (List.map_congr_left h)
  | set table =>
      have hmap := List.map_congr_left fun entry hentry => h _ (List.mem_map_of_mem hentry)
      exact congrArg (fun prints : List Nat => Form.set prints.toFinset) hmap
  | _ => rfl

end Content

namespace Block

/-- The content that a block is compared by, unless it is compared by identity. -/
def content? (block : Block) : Option Content :=
  match block.body with
  | .bytes seq =>
    if block.header.kind = .sysObj then none
    else some (.bytes (block.header.kind = .string) seq.toList)
  | .shorts seq => some (.shorts seq.toList)
  | .objects seq => if block.header.kind = .tuple then some (.tuple seq.toList) else none
  | .hash table => if table.keepsValues then none else some (.set table)
  | _ => none

section Content

variable {block : Block}

theorem content?_tuple {items : List Value} (h : block.content? = some (.tuple items)) :
    ∃ seq, block.body = .objects seq ∧ items = seq.toList ∧ block.header.kind = .tuple := by
  rw [content?] at h
  cases hbody : block.body with
  | objects seq =>
      simp only [hbody] at h
      split at h
      · cases h
        exact ⟨seq, rfl, rfl, ‹_›⟩
      · cases h
  | _ =>
      simp only [hbody] at h
      first | cases h | (split at h <;> cases h)

theorem content?_set {table : ProbeTable} (h : block.content? = some (.set table)) :
    block.body = .hash table ∧ table.keepsValues = false := by
  rw [content?] at h
  cases hbody : block.body with
  | hash found =>
      simp only [hbody] at h
      split at h
      · cases h
      · cases h
        exact ⟨rfl, Bool.eq_false_iff.mpr ‹_›⟩
  | _ =>
      simp only [hbody] at h
      first | cases h | (split at h <;> cases h)

theorem content?_of_objects {seq : BoundedSeq Value} (hbody : block.body = .objects seq)
    (hkind : block.header.kind = .tuple) : block.content? = some (.tuple seq.toList) := by
  rw [content?, hbody]
  exact if_pos hkind

theorem content?_of_hash {table : ProbeTable} (hbody : block.body = .hash table)
    (hkeeps : table.keepsValues = false) : block.content? = some (.set table) := by
  rw [content?, hbody]
  simp [hkeeps]

/-- What a comparison goes down to is an element of a tuple or a member of a set. -/
theorem mem_members {content : Content} (hcontent : block.content? = some content) {v : Value}
    (hv : v ∈ content.members) :
    (∃ seq, block.body = .objects seq ∧ block.header.kind = .tuple ∧ v ∈ seq.toList) ∨
      ∃ table hash value, block.body = .hash table ∧ table.keepsValues = false ∧
        (hash, v, value) ∈ table.toList := by
  cases content with
  | tuple items =>
      obtain ⟨seq, hbody, rfl, hkind⟩ := content?_tuple hcontent
      exact Or.inl ⟨seq, hbody, hkind, hv⟩
  | set table =>
      obtain ⟨hbody, hkeeps⟩ := content?_set hcontent
      obtain ⟨⟨hash, key, value⟩, hentry, rfl⟩ := List.mem_map.mp hv
      exact Or.inr ⟨table, hash, value, hbody, hkeeps, hentry⟩
  | _ => cases hv

end Content

end Block

namespace Heap

/-- The content that a value is compared by, unless it is compared by identity. -/
def content? (h : Heap) (v : Value) : Option Content :=
  v.slot?.bind fun slot => (h.block? slot).bind Block.content?

theorem content?_inline {h : Heap} {v : Value} (hslot : v.slot? = none) : h.content? v = none := by
  rw [content?, hslot]
  rfl

theorem content?_block {h : Heap} {v : Value} {slot : Nat} {block : Block}
    (hslot : v.slot? = some slot) (hblock : h.block? slot = some block) :
    h.content? v = block.content? := by
  rw [content?, hslot, Option.bind_some, hblock]
  rfl

/-- A value with a content refers to a block that has it. -/
theorem content?_eq_some {h : Heap} {v : Value} {content : Content}
    (hcontent : h.content? v = some content) :
    ∃ slot block, v.slot? = some slot ∧ h.block? slot = some block ∧
      block.content? = some content := by
  obtain ⟨slot, hslot, hrest⟩ := Option.bind_eq_some_iff.mp hcontent
  obtain ⟨block, hblock, hfound⟩ := Option.bind_eq_some_iff.mp hrest
  exact ⟨slot, block, hslot, hblock, hfound⟩

/-- The form of a value, from the fingerprints of the values inside it. -/
def form (h : Heap) (print : Value → Nat) (v : Value) : Form :=
  match h.number? v with
  | .ok (some n) => n.form v.word
  | _ => (h.content? v).elim (.itself v.word.toNat) (Content.form print)

/-- The fingerprint of a value, for nesting below a given depth. -/
def fingerprintWithin (h : Heap) : (depth : Nat) → Value → Nat
  | 0, _ => 0
  | depth + 1, v => Encodable.encode (h.form (h.fingerprintWithin depth) v)

/-- The number that stands for a value up to equality. -/
def fingerprint (h : Heap) (v : Value) : Nat := h.fingerprintWithin (h.slots.size + 1) v

/-- Fingerprints depend on the slots alone. -/
theorem fingerprint_congr {h h' : Heap} (hslots : h'.slots = h.slots) :
    h'.fingerprint = h.fingerprint := by
  have hform (print : Value → Nat) : h'.form print = h.form print := by
    funext v
    simp only [form, number?, body, block, content?, block?, hslots]
  have hwithin (depth : Nat) : h'.fingerprintWithin depth = h.fingerprintWithin depth := by
    induction depth with
    | zero => rfl
    | succ depth ih =>
        funext v
        rw [fingerprintWithin, fingerprintWithin, ih, hform]
  funext v
  rw [fingerprint, fingerprint, hslots, hwithin]

end Heap

end ObjectHeap
