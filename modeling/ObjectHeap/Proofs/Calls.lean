import ObjectHeap.Arguments
import ObjectHeap.Proofs.Runs
import ObjectHeap.Proofs.Words

/-! # Calls and their formats

A call matches its format if it has no more arguments than the format has letters, a default
for each letter in upper case, an argument that converts wherever there is one, and none but
optional letters without. Such a call returns the converted arguments and the defaults in place
of the missing ones. Any other is refused at the first position where one of these fails.

The number of arguments is held against the bytes of the format. That makes no difference: a
letter of more than one byte is no conversion, so a call that slips through fails there.
-/

namespace ObjectHeap

namespace Heap

variable {admits : Value → Prop} {h : Heap} {v : Value} {position : Nat} {spec : Char}

/-! ## Conversions -/

def blockOf? (h : Heap) (v : Value) : Option Block := v.slot?.bind h.block?

/-- The integer that a value is. Truth values count as zero and one. -/
inductive IntOf (h : Heap) (v : Value) : Int64 → Prop where
  | small {n : Int} : v.view = .ok (.smallInt n) → IntOf h v (Int64.ofInt n)
  | truth {b : Bool} : v.view = .ok (.bool b) → IntOf h v (if b then 1 else 0)
  | wide {block : Block} {n : Int64} : h.blockOf? v = some block → block.body = .integer n →
      IntOf h v n

/-- The storage of the string, the bytes or the byte array that a value is. -/
def BytesOf (h : Heap) (v : Value) (seq : BoundedSeq UInt8) : Prop :=
  ∃ block, h.blockOf? v = some block ∧
    (block.header.kind = .string ∨ block.header.kind = .bytes ∨ block.header.kind = .byteArray) ∧
    block.body = .bytes seq

/-- The float that a value is. -/
def FloatOf (h : Heap) (v : Value) (x : Binary64) : Prop :=
  ∃ block, h.blockOf? v = some block ∧ block.header.kind = .float ∧ block.body = .float x

/-- What a value is converted to by a format character. -/
inductive Converts (h : Heap) (v : Value) : Char → Argument → Prop where
  | long {n : Int64} : h.IntOf v n → Converts h v 'l' (.long n)
  | int {n : Int64} : h.IntOf v n → -2 ^ 31 ≤ n.toInt → n.toInt < 2 ^ 31 →
      Converts h v 'i' (.int n.toInt)
  | bytes {seq : BoundedSeq UInt8} : h.BytesOf v seq → Converts h v 's' (.bytes seq.toArray)
  | buffer {seq : BoundedSeq UInt8} : h.BytesOf v seq →
      Converts h v 'b' (.buffer seq.toArray seq.capacity)
  | float {x : Binary64} : h.FloatOf v x → Converts h v 'f' (.float x)

theorem exists_slot_of_blockOf? {block : Block} (hblock : h.blockOf? v = some block) :
    ∃ slot, v.slot? = some slot ∧ h.block? slot = some block :=
  Option.bind_eq_some_iff.mp hblock

/-- A value that is inline or refers to a block has no block only if it is inline. -/
theorem slot?_of_blockOf? (hv : h.contains v = true) (hnone : h.blockOf? v = none) :
    v.slot? = none := by
  cases hslot : v.slot? with
  | none => rfl
  | some slot =>
      obtain ⟨block, hblock⟩ := contains_iff.mp hv slot hslot
      simp [blockOf?, hslot, hblock] at hnone

/-- The number of a value is an integer exactly if the value is one. -/
theorem number?_eq_int_iff {n : Int64} : h.number? v = .ok (some (.int n)) ↔ h.IntOf v n := by
  constructor
  · intro hn
    rw [number?] at hn
    obtain ⟨view, hview, hn⟩ := bind_eq_ok_iff.mp hn
    split at hn
    · cases hn
      exact .small hview
    · cases hn
      exact .truth hview
    next slot =>
      obtain ⟨body, hbody, hn⟩ := bind_eq_ok_iff.mp hn
      cases hblock : h.block? slot with
      | none => simp [Heap.body, Heap.block, hblock] at hbody
      | some block =>
          cases (body_eq hblock).symm.trans hbody
          refine .wide (by rw [blockOf?, Value.slot?_of_view_ref hview]; exact hblock) ?_
          split at hn
          next heq =>
            cases hn
            exact heq
          next => cases hn
          next => cases hn
    · cases hn
  · rintro (hview | hview | ⟨hblock, hbody⟩)
    · rw [number?, hview]
      rfl
    · rw [number?, hview]
      rfl
    · obtain ⟨slot, hslot, hblock⟩ := exists_slot_of_blockOf? hblock
      rw [number?_ref hslot hblock, hbody]

/-- A value stands for one integer at most. -/
theorem IntOf.unique {n m : Int64} (hn : h.IntOf v n) (hm : h.IntOf v m) : n = m := by
  have heq := (number?_eq_int_iff.mpr hn).symm.trans (number?_eq_int_iff.mpr hm)
  cases heq
  rfl

theorem BytesOf.unique {s t : BoundedSeq UInt8} (hs : h.BytesOf v s) (ht : h.BytesOf v t) :
    s = t := by
  obtain ⟨block, hblock, _, hbody⟩ := hs
  obtain ⟨block', hblock', _, hbody'⟩ := ht
  cases hblock.symm.trans hblock'
  cases hbody.symm.trans hbody'
  rfl

theorem FloatOf.unique {x y : Binary64} (hx : h.FloatOf v x) (hy : h.FloatOf v y) : x = y := by
  obtain ⟨block, hblock, _, hbody⟩ := hx
  obtain ⟨block', hblock', _, hbody'⟩ := hy
  cases hblock.symm.trans hblock'
  cases hbody.symm.trans hbody'
  rfl

/-- The integer of a value is the one that it stands for. -/
theorem intValue_eq_ok_iff {n : Int64} : h.intValue v = .ok n ↔ h.IntOf v n := by
  rw [← number?_eq_int_iff, intValue]
  cases h.number? v with
  | error fault => exact ⟨nofun, nofun⟩
  | ok found =>
      rcases found with _ | m | x
      · cases h.kindOf v <;> exact ⟨nofun, nofun⟩
      · exact ⟨fun h => by cases h; rfl, fun h => by cases h; rfl⟩
      · cases h.kindOf v <;> exact ⟨nofun, nofun⟩

/-- A usable value stands for an integer or is refused. -/
theorem intValue_gives (hv : h.Usable admits v) : Gives admits (h.intValue v) (h.IntOf v) := by
  refine Gives.mono (Gives.with_eq (Q := fun _ => True) ?_) fun n hn => intValue_eq_ok_iff.mp hn.2
  refine Gives.look (number?_looks hv) fun found _ => ?_
  split
  · exact trivial
  · exact Gives.look (kindOf_looks hv) fun kind _ => Gives.refuse ..

/-! ## Outcomes at positions -/

/-- The conversion succeeds with a result of which `good` holds, or it is stopped at a position
of which `bad` holds. -/
def Resolves {α : Type} (admits : Value → Prop) (x : Except Stop α) (good : α → Prop)
    (bad : Nat → Prop) : Prop :=
  match x with
  | .ok a => good a
  | .error (.refused refusal) =>
      ∃ position flaw, refusal = .argument position flaw ∧ flaw ≠ .tooMany ∧ bad position
  | .error (.fault fault) => Excused admits fault ∧ ∃ position, bad position

namespace Resolves

variable {α β : Type} {x : Except Stop α} {good : α → Prop} {bad : Nat → Prop}
  {flaw : ArgumentFlaw}

/-- A refusal at a bad position resolves a conversion. -/
theorem refused (hflaw : flaw ≠ .tooMany) (hbad : bad position) :
    Resolves admits (refuse (.argument position flaw)) good bad :=
  ⟨position, flaw, rfl, hflaw, hbad⟩

/-- A conversion that is resolved more strictly is resolved. -/
theorem mono {good' : α → Prop} {bad' : Nat → Prop} (hx : Resolves admits x good bad)
    (hgood : ∀ a, good a → good' a) (hbad : ∀ p, bad p → bad' p) :
    Resolves admits x good' bad' := by
  cases x with
  | ok a => exact hgood a hx
  | error stop =>
      cases stop with
      | refused refusal =>
          obtain ⟨position, flaw, heq, hflaw, hposition⟩ := hx
          exact ⟨position, flaw, heq, hflaw, hbad position hposition⟩
      | fault fault => exact ⟨hx.1, hx.2.imp hbad⟩

/-- Conversions compose: a bad position of either is one of both. -/
theorem bind {f : α → Except Stop β} {good' : β → Prop} {bad' : Nat → Prop}
    (hx : Resolves admits x good bad) (hf : ∀ a, good a → Resolves admits (f a) good' bad')
    (hbad : ∀ p, bad p → bad' p) : Resolves admits (x >>= f) good' bad' := by
  have hx := hx.mono (fun _ => id) hbad
  cases x with
  | ok a => exact hf a hx
  | error stop => cases stop <;> exact hx

/-- A check that fails puts its position down as bad. -/
theorem orFlaw (hx : Gives admits x good) (hflaw : flaw ≠ .tooMany)
    (hbad : (∀ a, x ≠ .ok a) → bad position) :
    Resolves admits (Heap.orFlaw x position flaw) good bad := by
  cases x with
  | ok a => exact hx
  | error stop =>
      cases stop with
      | refused refusal => exact refused hflaw (hbad nofun)
      | fault fault => exact ⟨hx, position, hbad nofun⟩

end Resolves

/-- The payload of a block of the three kinds is a sequence of bytes, because it fits. -/
theorem byteSource?_spec (hw : h.WellFormed) (hv : h.contains v = true) :
    ∃ found, h.byteSource? v = .ok found ∧ ∀ seq, found = some seq ↔ h.BytesOf v seq := by
  unfold byteSource? BytesOf
  cases hof : h.blockOf? v with
  | none => exact ⟨none, by rw [slot?_of_blockOf? hv hof]; rfl, by simp⟩
  | some block =>
      obtain ⟨slot, hslot, hblock⟩ := exists_slot_of_blockOf? hof
      simp only [hslot, block_eq hblock, bind, Except.bind]
      simp only [Bool.or_eq_true, decide_eq_true_eq, or_assoc]
      split
      next hkind =>
        have hshape : block.header.kind.shape = .byteSequence := by
          rcases hkind with hkind | hkind | hkind <;> rw [hkind] <;> rfl
        obtain ⟨seq, hbody⟩ := Body.exists_bytes (hw.fits slot block hblock) hshape
        exact ⟨some seq, by rw [hbody]; rfl, by simp [hkind, hbody]⟩
      next hkind => exact ⟨none, rfl, by simp [hkind]⟩

/-- A float is told by its kind, and is read as one then. -/
theorem isFloat_spec (hw : h.WellFormed) (hv : h.contains v = true) :
    ∃ b, h.isFloat v = .ok b ∧ (b = true → ∃ x, h.FloatOf v x ∧ h.floatValue v = .ok x) ∧
      (b = false → ∀ x, ¬ h.FloatOf v x) := by
  unfold isFloat FloatOf
  cases hof : h.blockOf? v with
  | none =>
      have hslot := slot?_of_blockOf? hv hof
      rw [Value.isRef, Value.slot?_eq_none_iff.mp hslot]
      exact ⟨false, rfl, nofun, by simp⟩
  | some block =>
      obtain ⟨slot, hslot, hblock⟩ := exists_slot_of_blockOf? hof
      have hkind : h.kindOf v = .ok block.header.kind := kindOf_eq hslot hblock
      rw [Value.isRef, (Value.slot?_eq_some_iff.mp hslot).1, hkind]
      refine ⟨_, rfl, fun hfloat => ?_, fun hother => ?_⟩
      · have hfloat : block.header.kind = .float := by simpa using hfloat
        obtain ⟨x, hbody⟩ : ∃ x, block.body = .float x := by
          have hfit := hw.fits slot block hblock
          rw [hfloat] at hfit
          cases hbody : block.body <;> simp [hbody, Body.fits, Kind.shape] at hfit ⊢
        refine ⟨x, ⟨block, rfl, hfloat, hbody⟩, ?_⟩
        rw [floatValue, number?_ref hslot hblock, hbody]
        rfl
      · have hother : block.header.kind ≠ .float := by simpa using hother
        simp [hother]

/-- A value is converted to what it is, and refused only if it is nothing that the letter stands
for. -/
theorem convert_resolves (hw : h.WellFormed) (hv : h.Usable admits v) :
    Resolves admits (h.convert position spec v) (h.Converts v spec)
      fun p => p = position ∧ ∀ a, ¬ h.Converts v spec a := by
  have hint : Resolves admits (orFlaw (h.intValue v) position .expectedInt) (h.IntOf v)
      fun p => p = position ∧ ∀ n, ¬ h.IntOf v n :=
    Resolves.orFlaw (intValue_gives hv) nofun fun hnone =>
      ⟨rfl, fun n hn => hnone n (intValue_eq_ok_iff.mpr hn)⟩
  obtain ⟨found, hfound, hbytes⟩ := byteSource?_spec hw hv.1
  unfold convert
  split
  · -- integers
    refine Resolves.bind hint (fun n hn => .long hn) fun p hp => ⟨hp.1, ?_⟩
    intro _ ha
    cases ha with
    | long hn => exact hp.2 _ hn
  · -- integers of 32 bits
    refine Resolves.bind hint (fun n hn => ?_) fun p hp => ⟨hp.1, ?_⟩
    · dsimp only
      split
      next hrange => exact .int hn (by omega) (by omega)
      next hrange =>
        refine Resolves.refused nofun ⟨rfl, fun _ ha => ?_⟩
        cases ha with
        | int hm hlo hhi =>
            cases hn.unique hm
            omega
    · intro _ ha
      cases ha with
      | int hn _ _ => exact hp.2 _ hn
  · -- bytes
    rw [liftM_bind_eq hfound]
    cases found with
    | some seq => exact .bytes ((hbytes seq).mp rfl)
    | none =>
        refine Resolves.refused nofun ⟨rfl, fun _ ha => ?_⟩
        cases ha with
        | bytes hseq => exact nomatch (hbytes _).mpr hseq
  · -- bytes with their capacity
    rw [liftM_bind_eq hfound]
    cases found with
    | some seq => exact .buffer ((hbytes seq).mp rfl)
    | none =>
        refine Resolves.refused nofun ⟨rfl, fun _ ha => ?_⟩
        cases ha with
        | buffer hseq => exact nomatch (hbytes _).mpr hseq
  · -- floats
    obtain ⟨b, hb, hfloat, hother⟩ := isFloat_spec hw hv.1
    rw [liftM_bind_eq hb]
    cases b with
    | true =>
        obtain ⟨x, hx, hvalue⟩ := hfloat rfl
        simp only [hvalue, orFlaw]
        exact .float hx
    | false =>
        refine Resolves.refused nofun ⟨rfl, fun _ ha => ?_⟩
        cases ha with
        | float hx => exact hother rfl _ hx
  next hl hi hs hb hf =>
    refine Resolves.refused nofun ⟨rfl, fun _ ha => ?_⟩
    cases ha <;> contradiction

/-! ## Formats -/

/-- The default that is kept for a position of a format: each letter in upper case before it
has one of its own. -/
def defaultAt? (format : List Char) (defaults : List Argument) (p : Nat) : Option Argument :=
  defaults[(format.take p).countP Char.isUpper]?

/-- How a call can break its format at a position. -/
inductive FailsAt (h : Heap) (format : List Char) (args : List Value) (defaults : List Argument)
    (p : Nat) : Prop where
  /-- An optional letter has no default. -/
  | undefaulted {c : Char} : format[p]? = some c → c.isUpper = true →
      defaultAt? format defaults p = none → FailsAt h format args defaults p
  | unconverted {c : Char} {v : Value} : format[p]? = some c → args[p]? = some v →
      (∀ a, ¬ h.Converts v c.toLower a) → FailsAt h format args defaults p
  | missing {c : Char} : format[p]? = some c → args[p]? = none → c.isUpper = false →
      FailsAt h format args defaults p

/-- The result that a call has at a position of its format. -/
inductive EntryAt (h : Heap) (format : List Char) (args : List Value) (defaults : List Argument)
    (p : Nat) (a : Argument) : Prop where
  | converted {c : Char} {v : Value} : format[p]? = some c → args[p]? = some v →
      h.Converts v c.toLower a → EntryAt h format args defaults p a
  | fallback : args[p]? = none → defaultAt? format defaults p = some a →
      EntryAt h format args defaults p a

/-- The results of a call, one for each letter of its format. -/
structure Results (h : Heap) (format : List Char) (args : List Value) (defaults : List Argument)
    (out : List Argument) : Prop where
  length_eq : out.length = format.length
  entry : ∀ p a, out[p]? = some a → h.EntryAt format args defaults p a

variable {c : Char} {format : List Char} {args : List Value} {defaults : List Argument} {p : Nat}

/-- The defaults that are left once a letter has taken its own. -/
def leave (c : Char) (defaults : List Argument) : List Argument :=
  if c.isUpper then defaults.tail else defaults

theorem defaultAt?_cons_succ :
    defaultAt? (c :: format) defaults (p + 1) = defaultAt? format (leave c defaults) p := by
  cases hc : c.isUpper <;>
    simp [defaultAt?, leave, hc]

/-- An entry fails past the first character where the entry fails in what is left of the
call. -/
theorem failsAt_cons_succ_iff :
    h.FailsAt (c :: format) args defaults (p + 1) ↔
      h.FailsAt format args.tail (leave c defaults) p := by
  constructor
  · rintro (⟨hc, hupper, hdefault⟩ | ⟨hc, hv, hnone⟩ | ⟨hc, hv, hlower⟩)
    · exact .undefaulted (by simpa using hc) hupper (defaultAt?_cons_succ.symm.trans hdefault)
    · exact .unconverted (by simpa using hc) (by simpa using hv) hnone
    · exact .missing (by simpa using hc) (by simpa using hv) hlower
  · rintro (⟨hc, hupper, hdefault⟩ | ⟨hc, hv, hnone⟩ | ⟨hc, hv, hlower⟩)
    · exact .undefaulted (by simpa using hc) hupper (defaultAt?_cons_succ.trans hdefault)
    · exact .unconverted (by simpa using hc) (by simpa using hv) hnone
    · exact .missing (by simpa using hc) (by simpa using hv) hlower

theorem EntryAt.cons_succ {a : Argument} (ha : h.EntryAt format args.tail (leave c defaults) p a) :
    h.EntryAt (c :: format) args defaults (p + 1) a := by
  rcases ha with ⟨hc, hv, hconverts⟩ | ⟨hv, hdefault⟩
  · exact .converted (by simpa using hc) (by simpa using hv) hconverts
  · exact .fallback (by simpa using hv) (defaultAt?_cons_succ.trans hdefault)

theorem not_failsAt_nil : ¬ h.FailsAt [] args defaults p := by
  rintro (⟨hc, _, _⟩ | ⟨hc, _, _⟩ | ⟨hc, _, _⟩) <;> simp at hc

/-- The first entry fails if its default is missing, if its argument does not convert, or if it
has neither an argument nor a default. -/
theorem failsAt_cons_zero_iff :
    h.FailsAt (c :: format) args defaults 0 ↔
      (c.isUpper = true ∧ defaults = []) ∨
        (∃ v ∈ args.head?, ∀ a, ¬ h.Converts v c.toLower a) ∨ (args = [] ∧ c.isUpper = false) := by
  constructor
  · rintro (⟨hc, hupper, hdefault⟩ | ⟨hc, hv, hnone⟩ | ⟨hc, hv, hlower⟩) <;> cases hc
    · exact .inl ⟨hupper, by simpa [defaultAt?] using hdefault⟩
    · exact .inr (.inl ⟨_, List.head?_eq_getElem?.trans hv, hnone⟩)
    · exact .inr (.inr ⟨by simpa using hv, hlower⟩)
  · rintro (⟨hupper, rfl⟩ | ⟨v, hv, hnone⟩ | ⟨rfl, hlower⟩)
    · exact .undefaulted rfl hupper rfl
    · exact .unconverted rfl (List.head?_eq_getElem?.symm.trans hv) hnone
    · exact .missing rfl rfl hlower

/-- The step of `convertAll` at the first letter of a format. -/
def convertFirst (h : Heap) (position : Nat) (c : Char) (args : List Value)
    (defaults : List Argument) : Except Stop Argument :=
  if c.isUpper = true ∧ defaults = [] then refuse (.argument position .missingDefault)
  else match args, defaults with
    | v :: _, _ => h.convert position c.toLower v
    | [], fallback :: _ =>
        if c.isUpper then return fallback else refuse (.argument position .missingRequired)
    | [], [] => refuse (.argument position .missingRequired)

/-- One step of the conversion, by the first character of the format. -/
theorem convertAll_cons :
    h.convertAll position (c :: format) args defaults = (do
      let a ← h.convertFirst position c args defaults
      return a :: (← h.convertAll (position + 1) format args.tail (leave c defaults))) := by
  cases hc : c.isUpper with
  | true => cases defaults <;> cases args <;> simp [convertAll, convertFirst, leave, hc] <;> rfl
  | false =>
      have hlower : c.toLower = c := Char.toLower_eq_of_not_isUpper (by simp [hc])
      cases args with
      | nil => cases defaults <;> simp only [convertAll, convertFirst, hc] <;> rfl
      | cons v args => simp [convertAll, convertFirst, leave, hc, hlower]

/-- The first entry is converted, unless it is one that fails. -/
theorem convertFirst_resolves (hw : h.WellFormed) (format : List Char)
    (hargs : ∀ v ∈ args, h.Usable admits v) :
    Resolves admits (h.convertFirst position c args defaults)
      (fun a => ¬ h.FailsAt (c :: format) args defaults 0 ∧
        h.EntryAt (c :: format) args defaults 0 a)
      fun p => p = position ∧ h.FailsAt (c :: format) args defaults 0 := by
  unfold convertFirst
  split
  next hnone => exact Resolves.refused nofun ⟨rfl, .undefaulted rfl hnone.1 (by rw [hnone.2]; rfl)⟩
  next hsome =>
    split
    next v args =>
      refine (convert_resolves hw (hargs v (by simp))).mono (fun a ha => ?_) fun p hp => ?_
      · refine ⟨?_, .converted rfl rfl ha⟩
        rw [failsAt_cons_zero_iff]
        rintro (hnone | ⟨_, ⟨⟩, hnone⟩ | ⟨hnil, _⟩)
        · exact hsome hnone
        · exact hnone a ha
        · cases hnil
      · exact ⟨hp.1, .unconverted rfl rfl hp.2⟩
    next fallback defaults =>
      split
      next hupper =>
        refine ⟨?_, .fallback rfl rfl⟩
        rw [failsAt_cons_zero_iff]
        simp [hupper]
      next hlower => exact Resolves.refused nofun ⟨rfl, .missing rfl rfl (by simpa using hlower)⟩
    next => exact Resolves.refused nofun ⟨rfl, .missing rfl rfl (by simpa using hsome)⟩

/-- The letters are treated in order, so a call is stopped at the first position that fails. -/
theorem convertAll_resolves (hw : h.WellFormed) (hargs : ∀ v ∈ args, h.Usable admits v) :
    Resolves admits (h.convertAll position format args defaults)
      (fun out => (∀ p, ¬ h.FailsAt format args defaults p) ∧ h.Results format args defaults out)
      fun stop => ∃ p, stop = position + p ∧ IsLeast {p | h.FailsAt format args defaults p} p := by
  induction format generalizing position args defaults with
  | nil => exact ⟨fun p => not_failsAt_nil, rfl, by simp⟩
  | cons c format ih =>
      rw [convertAll_cons]
      refine Resolves.bind (convertFirst_resolves hw format hargs) (fun a ha => ?_) ?_
      · have htail : ∀ v ∈ args.tail, h.Usable admits v :=
          fun v hv => hargs v (List.mem_of_mem_tail hv)
        refine Resolves.bind (ih htail) (fun out hout => ⟨fun p => ?_, ?_, fun p b hb => ?_⟩) ?_
        · cases p with
          | zero => exact ha.1
          | succ p => exact fun hfail => hout.1 p (failsAt_cons_succ_iff.mp hfail)
        · simp [hout.2.length_eq]
        · cases p with
          | zero =>
              cases hb
              exact ha.2
          | succ p => exact (hout.2.entry p b hb).cons_succ
        · -- the first letter is fine, so the first failure is that of the rest
          rintro stop ⟨p, rfl, hfail, hleast⟩
          refine ⟨p + 1, by omega, failsAt_cons_succ_iff.mpr hfail, fun q hq => ?_⟩
          cases q with
          | zero => exact absurd hq ha.1
          | succ q => exact Nat.succ_le_succ (hleast (failsAt_cons_succ_iff.mp hq))
      · rintro stop ⟨rfl, hfail⟩
        exact ⟨0, rfl, hfail, fun _ _ => Nat.zero_le _⟩

/-! ## Calls that match their format -/

/-- A call that matches its format. -/
structure Matches (h : Heap) (format : List Char) (args : List Value)
    (defaults : List Argument) : Prop where
  args_le : args.length ≤ format.length
  uppers_le : format.countP Char.isUpper ≤ defaults.length
  converts : ∀ (p : Nat) (c : Char) (v : Value), format[p]? = some c → args[p]? = some v →
    ∃ a, h.Converts v c.toLower a
  optional : ∀ (p : Nat) (c : Char), format[p]? = some c → args[p]? = none → c.isUpper = true

/-- A letter in upper case is counted before the end of the format, not before itself. -/
theorem countP_take_lt (hc : format[p]? = some c) (hupper : c.isUpper = true) :
    (format.take p).countP Char.isUpper < format.countP Char.isUpper := by
  obtain ⟨hp, rfl⟩ := List.getElem?_eq_some_iff.mp hc
  calc (format.take p).countP Char.isUpper
      < (format.take (p + 1)).countP Char.isUpper := by
        rw [List.take_succ_eq_append_getElem hp, List.countP_append]
        simp [hupper]
    _ ≤ format.countP Char.isUpper := (List.take_sublist ..).countP_le

/-- If each letter in upper case has fewer of them before it, there are no more altogether. -/
theorem countP_le_of_forall_take_lt {n : Nat}
    (hlt : ∀ p c, format[p]? = some c → c.isUpper = true →
      (format.take p).countP Char.isUpper < n) : format.countP Char.isUpper ≤ n := by
  -- from the end, for the last one counts all the others
  induction format using List.reverseRecOn with
  | nil => simp
  | append_singleton format c ih =>
      cases hc : c.isUpper with
      | true =>
          have hlast := hlt format.length c (by simp) hc
          rw [List.take_left] at hlast
          simpa [hc] using hlast
      | false =>
          refine le_trans (by simp [hc]) (ih fun p d hd hupper => ?_)
          have hp : p < format.length := (List.getElem?_eq_some_iff.mp hd).1
          have hbefore := hlt p d (by rwa [List.getElem?_append_left hp]) hupper
          rwa [List.take_append_of_le_length hp.le] at hbefore

/-- A call with no more arguments than letters matches its format unless a position fails. -/
theorem matches_iff :
    h.Matches format args defaults ↔
      args.length ≤ format.length ∧ ∀ p, ¬ h.FailsAt format args defaults p := by
  constructor
  · intro hcall
    refine ⟨hcall.args_le, fun p => ?_⟩
    rintro (⟨hc, hupper, hdefault⟩ | ⟨hc, hv, hnone⟩ | ⟨hc, hv, hlower⟩)
    · have hle := List.getElem?_eq_none_iff.mp hdefault
      have hlt := countP_take_lt hc hupper
      have huppers := hcall.uppers_le
      omega
    · obtain ⟨a, ha⟩ := hcall.converts p _ _ hc hv
      exact hnone a ha
    · exact nomatch hlower.symm.trans (hcall.optional p _ hc hv)
  · rintro ⟨hle, hfine⟩
    refine ⟨hle, countP_le_of_forall_take_lt fun p c hc hupper => ?_, fun p c v hc hv => ?_,
      fun p c hc hv => ?_⟩
    · by_contra hge
      exact hfine p (.undefaulted hc hupper (List.getElem?_eq_none (by omega)))
    · by_contra hnone
      exact hfine p (.unconverted hc hv fun a ha => hnone ⟨a, ha⟩)
    · by_contra hlower
      exact hfine p (.missing hc hv (by simpa using hlower))

/-- A value converts to one argument at most. -/
theorem Converts.unique {a b : Argument} (ha : h.Converts v spec a) (hb : h.Converts v spec b) :
    a = b := by
  cases ha with
  | long hn =>
      cases hb with
      | long hm => rw [hn.unique hm]
  | int hn _ _ =>
      cases hb with
      | int hm _ _ => rw [hn.unique hm]
  | bytes hseq =>
      cases hb with
      | bytes hseq' => rw [hseq.unique hseq']
  | buffer hseq =>
      cases hb with
      | buffer hseq' => rw [hseq.unique hseq']
  | float hx =>
      cases hb with
      | float hy => rw [hx.unique hy]

theorem EntryAt.unique {a b : Argument} (ha : h.EntryAt format args defaults p a)
    (hb : h.EntryAt format args defaults p b) : a = b := by
  rcases ha with ⟨hc, hv, ha⟩ | ⟨hv, ha⟩ <;> rcases hb with ⟨hc', hv', hb⟩ | ⟨hv', hb⟩
  · cases hc.symm.trans hc'
    cases hv.symm.trans hv'
    exact ha.unique hb
  · exact nomatch hv.symm.trans hv'
  · exact nomatch hv.symm.trans hv'
  · exact Option.some.inj (ha.symm.trans hb)

/-- A call has one result at most. -/
theorem Results.unique {out out' : List Argument} (hout : h.Results format args defaults out)
    (hout' : h.Results format args defaults out') : out = out' := by
  refine List.ext_getElem (hout.length_eq.trans hout'.length_eq.symm) fun p hp hp' => ?_
  exact (hout.entry p _ (List.getElem?_eq_getElem hp)).unique
    (hout'.entry p _ (List.getElem?_eq_getElem hp'))

/-! ## Letters of more than one byte -/

/-- All conversions are named by letters of one byte. -/
theorem utf8Size_of_converts {a : Argument} (ha : h.Converts v c.toLower a) : c.utf8Size = 1 := by
  cases hc : c.isUpper with
  | true =>
      have hle : c.val ≤ 90 := by
        simp only [Char.isUpper, decide_eq_true_eq] at hc
        exact hc.2
      exact Char.utf8Size_eq_one_iff.mpr (UInt32.le_trans hle (by decide))
  | false =>
      rw [Char.toLower_eq_of_not_isUpper (by simp [hc])] at ha
      cases ha <;> rfl

theorem utf8Len_eq_sum : String.utf8Len format = (format.map Char.utf8Size).sum := by
  induction format with
  | nil => rfl
  | cons c format ih => rw [String.utf8Len_cons, ih, List.map_cons, List.sum_cons, Nat.add_comm]

theorem length_le_utf8Len : format.length ≤ String.utf8Len format := by
  have hpos : ∀ n ∈ format.map Char.utf8Size, 1 ≤ n := by
    simp only [List.forall_mem_map]
    exact fun c _ => c.utf8Size_pos
  simpa [utf8Len_eq_sum] using List.length_le_sum_of_one_le _ hpos

/-- A format with more bytes than characters has a character of several bytes. -/
theorem exists_utf8Size_ne_one (hwide : format.length < String.utf8Len format) :
    ∃ c ∈ format, c.utf8Size ≠ 1 := by
  by_contra hnone
  have hone : ∀ n ∈ format.map Char.utf8Size, n = 1 := by
    simpa [not_exists, not_and, not_not] using hnone
  have hsum := List.sum_eq_card_nsmul _ 1 hone
  simp [utf8Len_eq_sum, hsum] at hwide

/-- A call with more arguments than letters, but no more than bytes, has an argument for a
letter that is no conversion. -/
theorem exists_failsAt (hletters : format.length < args.length)
    (hbytes : args.length ≤ String.utf8Len format) : ∃ p, h.FailsAt format args defaults p := by
  obtain ⟨c, hmem, hwide⟩ := exists_utf8Size_ne_one (hletters.trans_le hbytes)
  obtain ⟨p, hp, rfl⟩ := List.getElem_of_mem hmem
  exact ⟨p, .unconverted (List.getElem?_eq_getElem hp)
    (List.getElem?_eq_getElem (hp.trans hletters)) fun a ha => hwide (utf8Size_of_converts ha)⟩

/-- How a call ends that does not match its format. -/
inductive Rejects (h : Heap) (format : String) (args : List Value) (defaults : List Argument) :
    Except Stop (List Argument) → Prop where
  | tooMany : format.utf8ByteSize < args.length →
      Rejects h format args defaults (refuse (.argument format.utf8ByteSize .tooMany))
  | first {position : Nat} {flaw : ArgumentFlaw} : flaw ≠ .tooMany →
      IsLeast {p | h.FailsAt format.toList args defaults p} position →
      Rejects h format args defaults (refuse (.argument position flaw))
  | malformed {v : Value} {fault : Fault} : v ∈ args → v.view = .error fault →
      Rejects h format args defaults (.error (.fault fault))

/-- A call is refused for the number of its arguments first, which is compared with the bytes of
the format. -/
theorem parseArguments_eq (format : String) :
    h.parseArguments format args defaults =
      if format.utf8ByteSize < args.length then refuse (.argument format.utf8ByteSize .tooMany)
      else h.convertAll 0 format.toList args defaults := by
  unfold parseArguments
  split <;> rfl

/-- A call that matches its format returns the arguments that the format says; another one is
rejected. -/
theorem parseArguments_spec (hw : h.WellFormed) (format : String) (defaults : List Argument)
    (hargs : ∀ v ∈ args, h.contains v = true) :
    (∃ out, h.parseArguments format args defaults = .ok out ∧
      h.Matches format.toList args defaults ∧ h.Results format.toList args defaults out) ∨
    (¬ h.Matches format.toList args defaults ∧
      h.Rejects format args defaults (h.parseArguments format args defaults)) := by
  have hbytes : String.utf8Len format.toList = format.utf8ByteSize := String.utf8Len_toList format
  rw [parseArguments_eq]
  split
  next hmany =>
    refine .inr ⟨fun hmatches => ?_, .tooMany hmany⟩
    have hle : format.toList.length ≤ String.utf8Len format.toList := length_le_utf8Len
    have hargs_le := hmatches.args_le
    omega
  next hfew =>
    -- a malformed word is for the caller to answer for
    have husable : ∀ v ∈ args, h.Usable (· ∈ args) v := fun v hv => ⟨hargs v hv, .inr hv⟩
    have hresolves : Resolves (· ∈ args) (h.convertAll 0 format.toList args defaults) _ _ :=
      convertAll_resolves hw husable
    have hfails : ∀ {p}, h.FailsAt format.toList args defaults p →
        ¬ h.Matches format.toList args defaults :=
      fun hfail hmatches => (matches_iff.mp hmatches).2 _ hfail
    cases hcase : h.convertAll 0 format.toList args defaults with
    | ok out =>
        rw [hcase] at hresolves
        obtain ⟨hfine, hout⟩ := hresolves
        -- more arguments than letters would have failed at a letter of several bytes
        have hle : args.length ≤ format.toList.length := by
          by_contra hlong
          obtain ⟨p, hfail⟩ : ∃ p, h.FailsAt format.toList args defaults p :=
            exists_failsAt (lt_of_not_ge hlong) (hbytes ▸ le_of_not_gt hfew)
          exact hfine p hfail
        exact .inl ⟨out, rfl, matches_iff.mpr ⟨hle, hfine⟩, hout⟩
    | error stop =>
        rw [hcase] at hresolves
        cases stop with
        | refused refusal =>
            obtain ⟨_, flaw, rfl, hflaw, p, rfl, hleast⟩ := hresolves
            rw [Nat.zero_add]
            exact .inr ⟨hfails hleast.1, .first hflaw hleast⟩
        | fault fault =>
            obtain ⟨⟨v, hv, hview⟩, _, p, _, hleast⟩ := hresolves
            exact .inr ⟨hfails hleast.1, .malformed hv hview⟩

/-- A call returns exactly if it matches its format, and then its results are those of its
letters. Any other call is refused, for too many arguments or at the first position that fails,
unless an argument is a malformed word. -/
theorem Reachable.parseArguments_exact [Digest] (hr : h.Reachable admits) (format : String)
    (args : List Value) (defaults : List Argument) (hargs : ∀ v ∈ args, h.contains v = true) :
    (∀ out, h.parseArguments format args defaults = .ok out ↔
      h.Matches format.toList args defaults ∧ h.Results format.toList args defaults out) ∧
    (h.Matches format.toList args defaults →
      ∃ out, h.parseArguments format args defaults = .ok out) ∧
    (¬ h.Matches format.toList args defaults →
      h.Rejects format args defaults (h.parseArguments format args defaults)) := by
  rcases parseArguments_spec hr.sound.consistent.wellFormed format defaults hargs with
    ⟨out, hparse, hmatches, hout⟩ | ⟨hmatches, hrejects⟩
  · refine ⟨fun out' => ⟨fun heq => ?_, fun hother => ?_⟩, fun _ => ⟨out, hparse⟩,
      fun hnot => absurd hmatches hnot⟩
    · cases hparse.symm.trans heq
      exact ⟨hmatches, hout⟩
    · rw [hparse, hout.unique hother.2]
  · refine ⟨fun out => ⟨fun heq => ?_, fun hother => absurd hother.1 hmatches⟩,
      fun hcall => absurd hcall hmatches, fun _ => hrejects⟩
    rw [heq] at hrejects
    cases hrejects

/-- An optional letter takes its default, and a letter of two bytes is found out although there
are as many arguments as bytes. -/
theorem parseArguments_exact_cramped :
    cramped.Matches "lI".toList [Value.ofSlot 1] [.int 3] ∧
      cramped.Results "lI".toList [Value.ofSlot 1] [.int 3] [.long 7, .int 3] ∧
      IsLeast {p | cramped.FailsAt "lé".toList (List.replicate 3 (Value.ofSlot 1)) [] p} 1 := by
  have hreach := reachable_cramped fun _ => True
  have hlive : ∀ v ∈ List.replicate 3 (Value.ofSlot 1), cramped.contains v = true := by decide
  have hparse : cramped.parseArguments "lI" [Value.ofSlot 1] [.int 3] =
      .ok [.long 7, .int 3] := by cbv
  have hrefused : cramped.parseArguments "lé" (List.replicate 3 (Value.ofSlot 1)) [] =
      refuse (.argument 1 .unknownFormat) := by cbv
  obtain ⟨hmatches, hresults⟩ :=
    ((hreach.parseArguments_exact "lI" [Value.ofSlot 1] [.int 3] (by decide)).1 _).mp hparse
  refine ⟨hmatches, hresults, ?_⟩
  have hrejects := (hreach.parseArguments_exact "lé" _ [] hlive).2.2
    fun hmatches => absurd hmatches.args_le (by decide)
  rw [hrefused] at hrejects
  cases hrejects with
  | first _ hleast => exact hleast

end Heap
end ObjectHeap
