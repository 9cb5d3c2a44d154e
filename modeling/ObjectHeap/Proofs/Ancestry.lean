import ObjectHeap.Proofs.Runs

/-! # Chains of bases

A name is looked up on a class, and then on its bases, depth first from left to right. The
classes that are still to search are kept on a worklist, and nothing keeps a search from coming
back to a class that it has passed without finding the name. It is then without an end, and only
then: a class may be its own ancestor, and the names that are found before the chain of bases
closes are found all the same. Bases may be given as a tuple or as a list. A tuple is made of
values that are there before it, and so is a class, so that only a list can close a chain of
bases.
-/

namespace ObjectHeap

/-- A path goes along one relation only, or takes a step along the other. -/
theorem transGen_or {α : Type} {r s : α → α → Prop} {a b : α}
    (hpath : Relation.TransGen (fun x y => r x y ∨ s x y) a b) :
    Relation.TransGen r a b ∨ ∃ x y, Relation.ReflTransGen (fun x y => r x y ∨ s x y) a x ∧
      s x y ∧ Relation.ReflTransGen (fun x y => r x y ∨ s x y) y b := by
  induction hpath with
  | single hstep =>
      rcases hstep with hr | hs
      · exact Or.inl (.single hr)
      · exact Or.inr ⟨_, _, .refl, hs, .refl⟩
  | tail hpath hstep ih =>
      rcases ih with hall | ⟨x, y, hx, hxy, hy⟩
      · rcases hstep with hr | hs
        · exact Or.inl (hall.tail hr)
        · exact Or.inr ⟨_, _, hpath.to_reflTransGen, hs, .refl⟩
      · exact Or.inr ⟨x, y, hx, hxy, hy.tail hstep⟩

/-! ## Searches with a worklist -/

/-- What is learnt from a class alone: the value found, or the bases to search next. -/
inductive Visit where
  | found (value : Value)
  | next (bases : List Value)
deriving DecidableEq

namespace Visit

section Search

variable (visit : Value → Except Stop Visit)

/-- The search along bases, for chains below a given length. -/
def walk : (length : Nat) → Value → Except Stop (Option Value)
  | 0, _ => .error (.fault .endless)
  | length + 1, v => do
    match ← visit v with
    | .found value => return some value
    | .next bases => Heap.firstFound (walk length) bases

/-- The search that goes on from what is learnt from a value. -/
def follow (search : Value → Except Stop (Option Value)) : Visit → Except Stop (Option Value)
  | .found value => .ok (some value)
  | .next bases => Heap.firstFound search bases

/-- The loop over pending values. -/
def loop : (rounds : Nat) → (pending : List Value) → Except Stop (Option Value)
  | 0, _ => .error (.fault .endless)
  | _ + 1, [] => .ok none
  | rounds + 1, v :: pending => do
    match ← visit v with
    | .found value => return some value
    | .next bases => loop rounds (bases ++ pending)

variable {visit}

theorem firstFound_of_error {search : Value → Except Stop (Option Value)} {v : Value} {stop : Stop}
    (hv : search v = .error stop) (rest : List Value) :
    Heap.firstFound search (v :: rest) = .error stop := by
  rw [Heap.firstFound, hv]
  rfl

theorem firstFound_of_found {search : Value → Except Stop (Option Value)} {v value : Value}
    (hv : search v = .ok (some value)) (rest : List Value) :
    Heap.firstFound search (v :: rest) = .ok (some value) := by
  rw [Heap.firstFound, hv]
  rfl

theorem firstFound_of_none {search : Value → Except Stop (Option Value)} {v : Value}
    (hv : search v = .ok none) (rest : List Value) :
    Heap.firstFound search (v :: rest) = Heap.firstFound search rest := by
  rw [Heap.firstFound, hv]
  rfl

theorem loop_of_error {v : Value} {stop : Stop} (hv : visit v = .error stop) (rounds : Nat)
    (pending : List Value) : loop visit (rounds + 1) (v :: pending) = .error stop := by
  rw [loop, hv]
  rfl

theorem loop_of_found {v value : Value} (hv : visit v = .ok (.found value)) (rounds : Nat)
    (pending : List Value) : loop visit (rounds + 1) (v :: pending) = .ok (some value) := by
  rw [loop, hv]
  rfl

theorem loop_of_next {v : Value} {bases : List Value} (hv : visit v = .ok (.next bases))
    (rounds : Nat) (pending : List Value) :
    loop visit (rounds + 1) (v :: pending) = loop visit rounds (bases ++ pending) := by
  rw [loop, hv]
  rfl

theorem walk_of_next {v : Value} {bases : List Value} (hv : visit v = .ok (.next bases))
    (length : Nat) : walk visit (length + 1) v = Heap.firstFound (walk visit length) bases := by
  rw [walk, hv]
  rfl

theorem walk_succ (length : Nat) (v : Value) :
    walk visit (length + 1) v = visit v >>= follow (walk visit length) := by
  rw [walk]
  cases visit v with
  | error => rfl
  | ok answer => cases answer <;> rfl

/-- A loop that has ended stays as it is with more rounds. -/
theorem loop_add {rounds : Nat} {pending : List Value}
    (hends : loop visit rounds pending ≠ .error (.fault .endless)) (more : Nat) :
    loop visit (rounds + more) pending = loop visit rounds pending := by
  induction rounds generalizing pending with
  | zero => exact absurd rfl hends
  | succ rounds ih =>
      rw [Nat.succ_add]
      cases pending with
      | nil => rfl
      | cons v pending =>
          cases hv : visit v with
          | error stop => rw [loop_of_error hv, loop_of_error hv]
          | ok answer =>
              cases answer with
              | found value => rw [loop_of_found hv, loop_of_found hv]
              | next bases =>
                  rw [loop_of_next hv] at hends ⊢
                  rw [loop_of_next hv]
                  exact ih hends

/-- Whether the loop searches a value, and then goes on, as a walk does that gives `result`. -/
def LoopSearches (visit : Value → Except Stop Visit) (v : Value)
    (result : Except Stop (Option Value)) : Prop :=
  ∃ used, ∀ rounds pending, loop visit (used + rounds) (v :: pending) =
    result >>= fun found => found.elim (loop visit rounds pending) fun value => .ok (some value)

theorem LoopSearches.exists_enough {v : Value} {result : Except Stop (Option Value)}
    (hsearches : LoopSearches visit v result) :
    ∃ enough, ∀ rounds ≥ enough, loop visit rounds [v] = result := by
  obtain ⟨used, hused⟩ := hsearches
  refine ⟨used + 1, fun rounds hrounds => ?_⟩
  obtain ⟨more, rfl⟩ := Nat.exists_eq_add_of_le hrounds
  rw [Nat.add_assoc, Nat.add_comm 1, hused (more + 1) []]
  cases result with
  | error => rfl
  | ok found => cases found <;> rfl

section Settled

variable {search : Value → Except Stop (Option Value)} (settled : Except Stop (Option Value) → Prop)
  (hsettled : ∀ found, settled (.ok found))
include hsettled

/-- The loop searches values as one does from left to right, up to the first search that does not
come to a settled result. -/
theorem loop_firstFound {items : List Value}
    (hitems : ∀ v ∈ items, settled (search v) → LoopSearches visit v (search v))
    (hends : settled (Heap.firstFound search items)) :
    ∃ used, ∀ rounds pending, loop visit (used + rounds) (items ++ pending) =
      Heap.firstFound search items >>= fun found =>
        found.elim (loop visit rounds pending) fun value => .ok (some value) := by
  induction items with
  | nil => exact ⟨0, fun rounds pending => by rw [Nat.zero_add]; rfl⟩
  | cons v items ih =>
      have hfirst := hitems v List.mem_cons_self
      cases hv : search v with
      | error stop =>
          rw [firstFound_of_error hv] at hends ⊢
          rw [hv] at hfirst
          obtain ⟨used, hused⟩ := hfirst hends
          exact ⟨used, fun rounds pending => hused rounds (items ++ pending)⟩
      | ok found =>
          rw [hv] at hfirst
          obtain ⟨used, hused⟩ := hfirst (hsettled found)
          cases found with
          | some value =>
              rw [firstFound_of_found hv]
              exact ⟨used, fun rounds pending => hused rounds (items ++ pending)⟩
          | none =>
              rw [firstFound_of_none hv] at hends ⊢
              obtain ⟨used', hused'⟩ :=
                ih (fun v hmem => hitems v (List.mem_cons_of_mem _ hmem)) hends
              refine ⟨used + used', fun rounds pending => ?_⟩
              rw [Nat.add_assoc]
              exact (hused (used' + rounds) (items ++ pending)).trans (hused' rounds pending)

/-- The loop goes on from a value as a search does, if it does so from its bases. -/
theorem loopSearches_follow {v : Value}
    (hbases : ∀ bases, visit v = .ok (.next bases) → ∀ w ∈ bases, settled (search w) →
      LoopSearches visit w (search w))
    (hends : settled (visit v >>= follow search)) :
    LoopSearches visit v (visit v >>= follow search) := by
  cases hv : visit v with
  | error stop =>
      refine ⟨1, fun rounds pending => ?_⟩
      rw [Nat.add_comm, loop_of_error hv]
      rfl
  | ok answer =>
      cases answer with
      | found value =>
          refine ⟨1, fun rounds pending => ?_⟩
          rw [Nat.add_comm, loop_of_found hv]
          rfl
      | next bases =>
          rw [hv] at hends
          obtain ⟨used, hused⟩ := loop_firstFound settled hsettled (hbases bases hv) hends
          refine ⟨used + 1, fun rounds pending => ?_⟩
          rw [Nat.add_right_comm, loop_of_next hv]
          exact hused rounds pending

end Settled

/-- Whether a search has come to an end. -/
def Ends (result : Except Stop (Option Value)) : Prop := result ≠ .error (.fault .endless)

theorem ends_ok (found : Option Value) : Ends (.ok found) := fun heq => by cases heq

/-- A walk that ends is what the loop does. -/
theorem loopSearches_walk {length : Nat} {v : Value}
    (hends : walk visit length v ≠ .error (.fault .endless)) :
    LoopSearches visit v (walk visit length v) := by
  induction length generalizing v with
  | zero => exact absurd rfl hends
  | succ length ih =>
      rw [walk_succ] at hends ⊢
      exact loopSearches_follow Ends ends_ok (fun _ _ _ _ hends => ih hends) hends

/-! ### Searches without an end -/

/-- Whether the search of one value comes to another: what is left of it has been searched in
vain. -/
def Comes (visit : Value → Except Stop Visit) (v w : Value) : Prop :=
  ∃ before after, visit v = .ok (.next (before ++ w :: after)) ∧
    ∀ u ∈ before, ∃ length, walk visit length u = .ok none

/-- A walk that has no end comes to a value where it has none either. -/
theorem exists_comes {length : Nat} {v : Value} (hv : visit v ≠ .error (.fault .endless))
    (hendless : walk visit (length + 1) v = .error (.fault .endless)) :
    ∃ w, Comes visit v w ∧ walk visit length w = .error (.fault .endless) := by
  cases hanswer : visit v with
  | error stop =>
      rw [walk, hanswer] at hendless
      cases hendless
      exact absurd hanswer hv
  | ok answer =>
      cases answer with
      | found value =>
          rw [walk, hanswer] at hendless
          cases hendless
      | next bases =>
          rw [walk_of_next hanswer] at hendless
          -- the base where the search breaks off is the first that does not answer in vain
          suffices hsplit : ∃ before w after, bases = before ++ w :: after ∧
              (∀ u ∈ before, walk visit length u = .ok none) ∧
              walk visit length w = .error (.fault .endless) by
            obtain ⟨before, w, after, rfl, hbefore, hw⟩ := hsplit
            exact ⟨w, ⟨before, after, hanswer, fun u hu => ⟨length, hbefore u hu⟩⟩, hw⟩
          clear hanswer
          induction bases with
          | nil => cases hendless
          | cons w bases ih =>
              cases hw : walk visit length w with
              | error stop =>
                  rw [firstFound_of_error hw] at hendless
                  exact ⟨[], w, bases, rfl, List.forall_mem_nil _, hw.trans hendless⟩
              | ok found =>
                  cases found with
                  | some value =>
                      rw [firstFound_of_found hw] at hendless
                      cases hendless
                  | none =>
                      rw [firstFound_of_none hw] at hendless
                      obtain ⟨before, u, after, rfl, hbefore, hu⟩ := ih hendless
                      exact ⟨w :: before, u, after, rfl, List.forall_mem_cons.mpr ⟨hw, hbefore⟩, hu⟩

/-- The loop leaves values behind that are searched in vain. -/
theorem loop_of_vain {items : List Value}
    (hvain : ∀ u ∈ items, ∃ length, walk visit length u = .ok none) :
    ∃ used, ∀ rounds pending,
      loop visit (used + rounds) (items ++ pending) = loop visit rounds pending := by
  induction items with
  | nil => exact ⟨0, fun rounds pending => by rw [Nat.zero_add]; rfl⟩
  | cons u items ih =>
      obtain ⟨length, hu⟩ := hvain u List.mem_cons_self
      obtain ⟨first, hfirst⟩ : LoopSearches visit u (walk visit length u) :=
        loopSearches_walk (by rw [hu]; exact fun heq => by cases heq)
      obtain ⟨used, hused⟩ := ih fun u hmem => hvain u (List.mem_cons_of_mem _ hmem)
      refine ⟨first + used, fun rounds pending => ?_⟩
      rw [Nat.add_assoc, List.cons_append, hfirst, hu]
      exact hused rounds pending

/-- The loop that starts with a value goes on to the values that its search comes to. -/
theorem loop_of_comes {v w : Value} (hcomes : Relation.TransGen (Comes visit) v w) :
    ∃ used after, ∀ rounds pending, loop visit (used + 1 + rounds) (v :: pending) =
      loop visit rounds (w :: (after ++ pending)) := by
  have hstep {v w : Value} (hcomes : Comes visit v w) : ∃ used after, ∀ rounds pending,
      loop visit (used + 1 + rounds) (v :: pending) =
        loop visit rounds (w :: (after ++ pending)) := by
    obtain ⟨before, after, hv, hvain⟩ := hcomes
    obtain ⟨used, hused⟩ := loop_of_vain hvain
    refine ⟨used, after, fun rounds pending => ?_⟩
    rw [Nat.add_right_comm, loop_of_next hv, List.append_assoc]
    exact hused rounds _
  induction hcomes with
  | single hcomes => exact hstep hcomes
  | tail _ hcomes ih =>
      obtain ⟨used, after, hused⟩ := ih
      obtain ⟨used', after', hused'⟩ := hstep hcomes
      refine ⟨used + 1 + used', after' ++ after, fun rounds pending => ?_⟩
      rw [Nat.add_assoc (used + 1), Nat.add_assoc (used + 1), hused, hused', List.append_assoc]

/-- A loop has no end if it goes on to one that has none. -/
theorem loop_endless_of_comes {v w : Value} (hcomes : Relation.TransGen (Comes visit) v w)
    (hendless : ∀ rounds pending, loop visit rounds (w :: pending) = .error (.fault .endless))
    (rounds : Nat) (pending : List Value) :
    loop visit rounds (v :: pending) = .error (.fault .endless) := by
  obtain ⟨used, after, hused⟩ := loop_of_comes hcomes
  by_contra hends
  have hmore := hused rounds pending
  rw [Nat.add_comm, loop_add hends, hendless] at hmore
  exact hends hmore

/-- A loop that comes back to where it was has no end. -/
theorem loop_endless_of_cycle {v : Value} (hcycle : Relation.TransGen (Comes visit) v v)
    (rounds : Nat) (pending : List Value) :
    loop visit rounds (v :: pending) = .error (.fault .endless) := by
  obtain ⟨used, after, hused⟩ := loop_of_comes hcycle
  induction rounds using Nat.strong_induction_on generalizing pending with
  | h rounds ih =>
      by_contra hends
      -- the loop cannot have ended before it comes back, nor does it end from there on
      rcases Nat.lt_or_ge rounds (used + 1) with hlt | hge
      · have hmore := hused 0 pending
        obtain ⟨more, hmore'⟩ := Nat.exists_eq_add_of_lt hlt
        rw [Nat.add_zero, hmore', Nat.add_assoc, loop_add hends] at hmore
        exact hends hmore
      · obtain ⟨more, rfl⟩ := Nat.exists_eq_add_of_le hge
        exact hends ((hused more pending).trans (ih more (by omega) _))

/-- A loop that comes to a value, and from there back to it, has no end. -/
theorem loop_endless_of_circle {v c : Value} (hcomes : Relation.ReflTransGen (Comes visit) v c)
    (hcycle : Relation.TransGen (Comes visit) c c) (rounds : Nat) (pending : List Value) :
    loop visit rounds (v :: pending) = .error (.fault .endless) :=
  loop_endless_of_comes (.trans_right hcomes hcycle) (loop_endless_of_cycle hcycle) rounds pending

section Cycles

variable {among : Value → Prop}
  (hamong : ∀ v, among v → visit v ≠ .error (.fault .endless) ∧
    ∀ bases, visit v = .ok (.next bases) → ∀ w ∈ bases, among w)
include hamong

theorem among_of_comes {v w : Value} (hv : among v) (hcomes : Comes visit v w) : among w := by
  obtain ⟨before, after, hanswer, _⟩ := hcomes
  exact (hamong v hv).2 _ hanswer w (by simp)

/-- A walk that has no end passes along a chain of its own length. -/
theorem exists_chain {length : Nat} {v : Value} (hv : among v)
    (hendless : walk visit length v = .error (.fault .endless)) :
    ∃ chain : Nat → Value, chain 0 = v ∧
      ∀ i < length, among (chain i) ∧ Comes visit (chain i) (chain (i + 1)) := by
  induction length generalizing v with
  | zero => exact ⟨fun _ => v, rfl, fun i hi => absurd hi (Nat.not_lt_zero i)⟩
  | succ length ih =>
      obtain ⟨w, hcomes, hw⟩ := exists_comes (hamong v hv).1 hendless
      obtain ⟨chain, hstart, hchain⟩ := ih (among_of_comes hamong hv hcomes) hw
      refine ⟨fun i => if i = 0 then v else chain (i - 1), rfl, fun i hi => ?_⟩
      cases i with
      | zero => simpa [hstart] using ⟨hv, hcomes⟩
      | succ i => simpa using hchain i (by omega)

/-- If what is learnt from a value depends on its place only, and there are `size` places, then a
walk along more than `size` values comes to one that it comes back to. -/
theorem exists_cycle {size : Nat} {place : Value → Nat}
    (hplace : ∀ v w, among v → Comes visit v w → place v < size)
    (hsame : ∀ v v' w w', among v → among v' → Comes visit v w → Comes visit v' w' →
      place v = place v' → visit v = visit v')
    {v : Value} (hv : among v) (hendless : walk visit (size + 1) v = .error (.fault .endless)) :
    ∃ c, Relation.TransGen (Comes visit) v c ∧ Relation.TransGen (Comes visit) c c := by
  obtain ⟨chain, rfl, hchain⟩ := exists_chain hamong hv hendless
  have hpath (i k : Nat) (hk : i + k < size + 2) :
      Relation.ReflTransGen (Comes visit) (chain i) (chain (i + k)) := by
    induction k with
    | zero => exact .refl
    | succ k ih => exact (ih (by omega)).tail (hchain (i + k) (by omega)).2
  -- two of the values on the chain are in one place
  let places (i : Fin (size + 1)) : Fin size :=
    ⟨place (chain i), hplace _ _ (hchain i i.isLt).1 (hchain i i.isLt).2⟩
  obtain ⟨i, j, hne, heq⟩ := Fintype.exists_ne_map_eq_of_card_lt places (by simp)
  wlog hlt : i < j generalizing i j
  · exact this j i hne.symm heq.symm (by omega)
  obtain ⟨k, hk⟩ := Nat.exists_eq_add_of_lt (Fin.lt_def.mp hlt)
  have hvisit : visit (chain i) = visit (chain j) :=
    hsame _ _ _ _ (hchain i i.isLt).1 (hchain j j.isLt).1 (hchain i i.isLt).2
      (hchain j j.isLt).2 (Fin.val_eq_of_eq heq)
  -- so the later one goes on like the earlier one
  have hback : Comes visit (chain j) (chain (i + 1)) := by
    obtain ⟨before, after, hanswer, hvain⟩ := (hchain i i.isLt).2
    exact ⟨before, after, hvisit ▸ hanswer, hvain⟩
  refine ⟨chain (i + 1), ?_, ?_⟩
  · have hfirst := hpath 0 i (by omega)
    rw [Nat.zero_add] at hfirst
    exact .tail' hfirst (hchain i i.isLt).2
  · have hreach := hpath (i + 1) k (by omega)
    rw [show (i : Nat) + 1 + k = j by omega] at hreach
    exact .tail' hreach hback

end Cycles

end Search

end Visit

namespace Heap

section Digest

variable [Digest]

/-- Looks a name up on a class alone. -/
def visitClass (h : Heap) (name v : Value) : Except Stop Visit := do
  let body ← h.classBody v
  match ← h.dictGet body.methods name with
  | some value => return .found value
  | none =>
    if body.bases.isRef then return .next (← h.objects body.bases).toList else return .next []

theorem classAttrWithin_eq_walk (h : Heap) (name : Value) (length : Nat) (v : Value) :
    h.classAttrWithin name length v = Visit.walk (h.visitClass name) length v := by
  induction length generalizing v with
  | zero => rfl
  | succ length ih =>
      rw [classAttrWithin, Visit.walk, visitClass, funext ih]
      cases h.classBody v with
      | error => rfl
      | ok body =>
          dsimp only [bind, Except.bind]
          cases h.dictGet body.methods name with
          | error => rfl
          | ok found =>
              cases found with
              | some value => rfl
              | none =>
                  dsimp only
                  split
                  next => cases h.objects body.bases <;> rfl
                  next => rfl

/-- Looks a name up on an instance, class or module, with a search that starts from a class. -/
def attrFrom (h : Heap) (search : Value → Except Stop (Option Value)) (object name : Value) :
    Except Stop (Option Value) := do
  match ← h.kindOf object with
  | .instanceObj =>
    let body ← h.instanceBody object
    match ← h.dictGet body.attributes name with
    | some found => return some found
    | none => search body.classRef
  | .moduleObj => h.dictGet (← h.moduleBody object).globals name
  | .classObj => search object
  | found => refuse (.typeMismatch "instance, class or module" found)

theorem getAttr_eq (h : Heap) (object name : Value) :
    h.getAttr object name = h.attrFrom (h.classAttr name) object name := rfl

/-- Looks a name up on an instance, class or module, within a number of rounds of the loop over
pending classes. -/
def loopAttr (h : Heap) (rounds : Nat) (object name : Value) : Except Stop (Option Value) :=
  h.attrFrom (fun v => Visit.loop (h.visitClass name) rounds [v]) object name

/-! ## Ancestors -/

omit [Digest] in
/-- Whether a class has a value among its bases, which are in a sequence of the kind. -/
def InheritsBy (h : Heap) (kind : Kind) (v w : Value) : Prop :=
  ∃ slot block c s bases seq, v.slot? = some slot ∧ h.block? slot = some block ∧
    block.body = .classObj c ∧ c.bases.slot? = some s ∧ h.block? s = some bases ∧
    bases.header.kind = kind ∧ bases.body = .objects seq ∧ w ∈ seq.toList

omit [Digest] in
/-- Whether a class has a value among its bases. -/
def Inherits (h : Heap) (v w : Value) : Prop := h.InheritsBy .tuple v w ∨ h.InheritsBy .list v w

omit [Digest] in
/-- Whether a lookup on an object may start from a class: the object itself, or that of which it is
an instance. -/
def StartsFrom (h : Heap) (object v : Value) : Prop :=
  v = object ∨ ∃ slot block i, object.slot? = some slot ∧ h.block? slot = some block ∧
    block.body = .instanceObj i ∧ v = i.classRef

/-- Where the lookup of a name on an object searches along classes: from the object if it is a
class, and if it is an instance that does not bind the name, from the class that it is an
instance of. -/
inductive SearchesFrom (h : Heap) (object name : Value) : Value → Prop
  | classObj (hkind : h.kindOf object = .ok .classObj) : SearchesFrom h object name object
  | instanceObj {i : InstanceBody} (hkind : h.kindOf object = .ok .instanceObj)
      (hi : h.instanceBody object = .ok i) (hvain : h.dictGet i.attributes name = .ok none) :
      SearchesFrom h object name i.classRef

/-- Whether the lookup of a name on an object comes to a class, and from there back to it. All that
it passes is searched in vain, and without an error. -/
def Circles (h : Heap) (object name c : Value) : Prop :=
  ∃ v, h.SearchesFrom object name v ∧
    Relation.ReflTransGen (Visit.Comes (h.visitClass name)) v c ∧
    Relation.TransGen (Visit.Comes (h.visitClass name)) c c

section Coherent

variable {admits : Value → Prop} {h : Heap}

/-- Bases in tuples are ranked: classes and tuples are made of what is there before them. -/
theorem Coherent.not_inheritsBy_tuple (hc : h.Coherent admits) (v : Value) :
    ¬ Relation.TransGen (h.InheritsBy .tuple) v v := by
  obtain ⟨rank, hrank⟩ := hc.settled
  let height (v : Value) := v.slot?.elim 0 fun slot => rank slot + 1
  have hless (v w : Value) (hinherits : h.InheritsBy .tuple v w) : height w < height v := by
    obtain ⟨slot, block, c, s, bases, seq, hslot, hblock, hbody, hs, hbases, hkind, hseq, hw⟩ :=
      hinherits
    have hclass : block.header.kind = .classObj := by
      have hfits := hc.fits slot block hblock
      rw [hbody] at hfits
      exact beq_iff_eq.mp hfits
    have hfirst := hrank slot s ⟨block, c.bases, hblock, by simp [Block.fixed, hclass, hbody,
      Body.edges, Kind.isFrozen, Kind.isMutable], hs⟩
    cases hw' : w.slot? with
    | none => simp [height, hslot, hw']
    | some next =>
        have hsecond := hrank s next ⟨bases, w, hbases, by simpa [Block.fixed, hkind, hseq,
          Body.edges, Kind.isFrozen, Kind.isMutable] using hw, hw'⟩
        simp only [height, hslot, hw', Option.elim_some]
        omega
  intro hcycle
  have hfalls {v w : Value} (hpath : Relation.TransGen (h.InheritsBy .tuple) v w) :
      height w < height v := by
    induction hpath with
    | single hstep => exact hless _ _ hstep
    | tail _ hstep ih => exact (hless _ _ hstep).trans ih
  exact Nat.lt_irrefl _ (hfalls hcycle)

/-- A class that is its own ancestor is so through bases in a list. -/
theorem Coherent.exists_inheritsBy_list (hc : h.Coherent admits) {c : Value}
    (hcycle : Relation.TransGen h.Inherits c c) :
    ∃ v w, Relation.ReflTransGen h.Inherits c v ∧ h.InheritsBy .list v w ∧
      Relation.ReflTransGen h.Inherits w c :=
  (transGen_or hcycle).resolve_left (hc.not_inheritsBy_tuple c)

end Coherent

section Search

variable {admits : Value → Prop} {h : Heap} (hs : h.Sound admits 0)
include hs

omit hs [Digest] in
theorem classBody_eq {v : Value} {slot : Nat} {b : Block} {c : ClassBody}
    (hslot : v.slot? = some slot) (hb : h.block? slot = some b) (hkind : b.header.kind = .classObj)
    (hbody : b.body = .classObj c) : h.classBody v = .ok c := by
  rw [classBody, recordPart, ← hkind, record_eq hslot hb, hbody]
  rfl

omit hs [Digest] in
theorem classBody_eq_ok {v : Value} {c : ClassBody} (hc : h.classBody v = .ok c) :
    ∃ slot b, v.slot? = some slot ∧ h.block? slot = some b ∧ b.header.kind = .classObj ∧
      b.body = .classObj c := by
  refine recordPart_eq_ok (fun body part hpart => ?_) hc
  cases body <;> cases hpart
  rfl

omit hs [Digest] in
theorem instanceBody_eq_ok {v : Value} {i : InstanceBody} (hi : h.instanceBody v = .ok i) :
    ∃ slot b, v.slot? = some slot ∧ h.block? slot = some b ∧ b.header.kind = .instanceObj ∧
      b.body = .instanceObj i := by
  refine recordPart_eq_ok (fun body part hpart => ?_) hi
  cases body <;> cases hpart
  rfl

omit hs [Digest] in
/-- The bases of a class are in a tuple or a list. -/
theorem inherits_of_objects {v w : Value} {slot s : Nat} {block bases : Block} {c : ClassBody}
    {seq : BoundedSeq Value} (hslot : v.slot? = some slot) (hblock : h.block? slot = some block)
    (hbody : block.body = .classObj c) (hs : c.bases.slot? = some s)
    (hbases : h.block? s = some bases) (hshape : bases.header.kind.shape = .objectSequence)
    (hseq : bases.body = .objects seq) (hw : w ∈ seq.toList) : h.Inherits v w := by
  have hkind : bases.header.kind = .tuple ∨ bases.header.kind = .list := by
    cases hkind : bases.header.kind <;> simp_all [Kind.shape]
  exact hkind.imp
    (fun hkind =>
      ⟨slot, block, c, s, bases, seq, hslot, hblock, hbody, hs, hbases, hkind, hseq, hw⟩)
    (fun hkind =>
      ⟨slot, block, c, s, bases, seq, hslot, hblock, hbody, hs, hbases, hkind, hseq, hw⟩)

/-- What is learnt from a class alone depends on its slot. -/
theorem visitClass_gives {name v : Value} (hname : h.Usable admits name) (hv : h.Usable admits v) :
    Gives admits (h.visitClass name v) fun visit =>
      (∃ slot, v.slot? = some slot ∧ slot < h.slots.size ∧
        ∀ w, w.slot? = some slot → h.visitClass name w = h.visitClass name v) ∧
      ∀ bases, visit = .next bases → ∀ w ∈ bases, h.Inherits v w ∧ h.Usable admits w := by
  refine Gives.bind (classBody_gives hs hv) fun c hfound => ?_
  obtain ⟨slot, b, hslot, hb, hkind, hbody⟩ := hfound
  have hplace : ∃ slot, v.slot? = some slot ∧ slot < h.slots.size ∧
      ∀ w, w.slot? = some slot → h.visitClass name w = h.visitClass name v := by
    refine ⟨slot, hslot, lt_size_of_block? hb, fun w hw => ?_⟩
    rw [visitClass, visitClass, classBody_eq hslot hb hkind hbody, classBody_eq hw hb hkind hbody]
  have hedges := hs.coherent.edges_usable slot b hb
  rw [hbody] at hedges
  refine Gives.bind (dictGet_gives hs.coherent (hedges c.methods (by simp [Body.edges])) hname)
    fun found _ => ?_
  cases found with
  | some value => exact Gives.ok ⟨hplace, fun _ heq => by cases heq⟩
  | none =>
      dsimp only
      split
      next =>
        refine Gives.bind (objects_reads hs (hedges c.bases (by simp [Body.edges])))
          fun items hread => Gives.ok ⟨hplace, ?_⟩
        obtain ⟨s, bases, seq, hs', hbases, hshape, hseq, hitems⟩ := hread
        rintro _ ⟨⟩ w hw
        rw [hitems] at hw
        refine ⟨inherits_of_objects hslot hb hbody hs' hbases hshape hseq hw,
          hs.coherent.edges_usable s bases hbases w ?_⟩
        rw [hseq]
        exact hw
      next =>
        refine Gives.ok ⟨hplace, ?_⟩
        rintro _ ⟨⟩ w hw
        cases hw

omit hs in
/-- A lookup that searches along classes is the search from where it starts. -/
theorem SearchesFrom.attrFrom_eq {object name v : Value} (hfrom : h.SearchesFrom object name v)
    (search : Value → Except Stop (Option Value)) : h.attrFrom search object name = search v := by
  cases hfrom with
  | classObj hkind =>
      rw [attrFrom, hkind]
      rfl
  | instanceObj hkind hi hvain =>
      rw [attrFrom, hkind, liftM_ok_bind]
      simp only [hi, bind, Except.bind, hvain]

omit hs in
theorem SearchesFrom.startsFrom {object name v : Value} (hfrom : h.SearchesFrom object name v) :
    h.StartsFrom object v := by
  cases hfrom with
  | classObj => exact Or.inl rfl
  | instanceObj _ hi =>
      obtain ⟨slot, b, hslot, hb, _, hbody⟩ := instanceBody_eq_ok hi
      exact Or.inr ⟨slot, b, _, hslot, hb, hbody, rfl⟩

omit hs in
/-- A lookup ends without a search along classes, or comes down to one. -/
theorem attrFrom_comes (h : Heap) (object name : Value) :
    (∃ result, ∀ search, h.attrFrom search object name = result) ∨
      ∃ v, h.SearchesFrom object name v := by
  simp only [attrFrom]
  cases hkind : h.kindOf object with
  | error fault => exact Or.inl ⟨.error (.fault fault), fun _ => rfl⟩
  | ok kind =>
      simp only [liftM_ok_bind]
      split
      next =>
        cases hi : h.instanceBody object with
        | error stop => exact Or.inl ⟨.error stop, fun _ => rfl⟩
        | ok i =>
            cases hfound : h.dictGet i.attributes name with
            | error stop =>
                refine Or.inl ⟨.error stop, fun _ => ?_⟩
                simp only [bind, Except.bind, hfound]
            | ok found =>
                cases found with
                | some value =>
                    refine Or.inl ⟨.ok (some value), fun _ => ?_⟩
                    simp only [bind, Except.bind, hfound]
                    rfl
                | none => exact Or.inr ⟨i.classRef, .instanceObj hkind hi hfound⟩
      next => exact Or.inl ⟨_, fun _ => rfl⟩
      next => exact Or.inr ⟨object, .classObj hkind⟩
      next => exact Or.inl ⟨_, fun _ => rfl⟩

theorem StartsFrom.usable {object v : Value} (hstarts : h.StartsFrom object v)
    (hobject : h.Usable admits object) : h.Usable admits v := by
  rcases hstarts with rfl | ⟨slot, b, i, _, hb, hbody, rfl⟩
  · exact hobject
  · have hedges := hs.coherent.edges_usable slot b hb
    rw [hbody] at hedges
    exact hedges i.classRef (by simp [Body.edges])

theorem attrFrom_gives {search : Value → Except Stop (Option Value)} {object name : Value}
    (hobject : h.Usable admits object) (hname : h.Usable admits name)
    (hsearch : ∀ v, Gives admits (search v) fun _ => True) :
    Gives admits (h.attrFrom search object name) fun _ => True := by
  rw [attrFrom]
  refine Gives.look (kindOf_looks hobject) fun kind _ => ?_
  split
  next =>
    refine Gives.bind (instanceBody_gives hs hobject) fun i hfound => ?_
    obtain ⟨slot, b, _, hb, _, hbody⟩ := hfound
    have hedges := hs.coherent.edges_usable slot b hb
    rw [hbody] at hedges
    refine Gives.bind (dictGet_gives hs.coherent (hedges i.attributes (by simp [Body.edges])) hname)
      fun found _ => ?_
    cases found with
    | some value => exact Gives.ok trivial
    | none => exact hsearch i.classRef
  next =>
    refine Gives.bind (moduleBody_gives hs hobject) fun m hfound => ?_
    obtain ⟨slot, b, _, hb, _, hbody⟩ := hfound
    have hedges := hs.coherent.edges_usable slot b hb
    rw [hbody] at hedges
    exact (dictGet_gives hs.coherent (hedges m.globals (by simp [Body.edges])) hname).mono
      fun _ _ => trivial
  next => exact hsearch object
  next => exact Gives.refuse ..

/-- Searching a class ends, and comes to its bases. -/
theorem usable_of_visitClass {name v : Value} (hname : h.Usable admits name)
    (hv : h.Usable admits v) :
    h.visitClass name v ≠ .error (.fault .endless) ∧
      ∀ bases, h.visitClass name v = .ok (.next bases) → ∀ w ∈ bases, h.Usable admits w := by
  have hgives := visitClass_gives hs hname hv
  refine ⟨fun hendless => (hgives.excuse hendless).ne_endless rfl, fun bases hvisit w hw => ?_⟩
  exact ((hgives.result hvisit).2 bases rfl w hw).2

theorem inherits_of_comes_single {name v w : Value} (hname : h.Usable admits name)
    (hv : h.Usable admits v) (hcomes : Visit.Comes (h.visitClass name) v w) :
    h.Inherits v w ∧ h.Usable admits w := by
  obtain ⟨before, after, hvisit, _⟩ := hcomes
  exact ((visitClass_gives hs hname hv).result hvisit).2 _ rfl w (by simp)

/-- What a search comes to are ancestors. -/
theorem inherits_of_comes {name v w : Value} (hname : h.Usable admits name)
    (hv : h.Usable admits v)
    (hcomes : Relation.ReflTransGen (Visit.Comes (h.visitClass name)) v w) :
    Relation.ReflTransGen h.Inherits v w ∧ h.Usable admits w := by
  induction hcomes with
  | refl => exact ⟨.refl, hv⟩
  | tail _ hcomes ih =>
      obtain ⟨hpath, husable⟩ := ih
      obtain ⟨hinherits, husable'⟩ := inherits_of_comes_single hs hname husable hcomes
      exact ⟨hpath.tail hinherits, husable'⟩

/-- A class that a search comes back to is its own ancestor. -/
theorem inherits_self_of_comes {name c : Value} (hname : h.Usable admits name)
    (hc : h.Usable admits c) (hcycle : Relation.TransGen (Visit.Comes (h.visitClass name)) c c) :
    Relation.TransGen h.Inherits c c := by
  obtain ⟨d, hcomes, hlast⟩ := Relation.TransGen.tail'_iff.mp hcycle
  obtain ⟨hpath, husable⟩ := inherits_of_comes hs hname hc hcomes
  exact .tail' hpath (inherits_of_comes_single hs hname husable hlast).1

/-- A search along classes without an end comes to a class that it comes back to. -/
theorem exists_comes_self {name v : Value} (hname : h.Usable admits name) (hv : h.Usable admits v)
    (hendless : h.classAttr name v = .error (.fault .endless)) :
    ∃ c, Relation.TransGen (Visit.Comes (h.visitClass name)) v c ∧
      Relation.TransGen (Visit.Comes (h.visitClass name)) c c := by
  rw [classAttr, classAttrWithin_eq_walk] at hendless
  let place (v : Value) : Nat := v.slot?.getD 0
  have hplace (v w : Value) (hv : h.Usable admits v)
      (hcomes : Visit.Comes (h.visitClass name) v w) :
      v.slot? = some (place v) ∧ place v < h.slots.size ∧
        ∀ w, w.slot? = some (place v) → h.visitClass name w = h.visitClass name v := by
    obtain ⟨before, after, hvisit, _⟩ := hcomes
    obtain ⟨slot, hslot, hlt, hsame⟩ := ((visitClass_gives hs hname hv).result hvisit).1
    simp only [place, hslot, Option.getD_some]
    exact ⟨trivial, hlt, hsame⟩
  refine Visit.exists_cycle (fun v hv => usable_of_visitClass hs hname hv)
    (fun v w hv hcomes => (hplace v w hv hcomes).2.1) (fun v v' w w' hv hv' hw hw' heq => ?_) hv
    hendless
  obtain ⟨hslot, _, _⟩ := hplace v w hv hw
  obtain ⟨hslot', _, hsame⟩ := hplace v' w' hv' hw'
  exact hsame v (heq ▸ hslot)

/-- A search along classes is what the loop does after enough rounds. -/
theorem loop_classAttr {name v : Value} (hname : h.Usable admits name) (hv : h.Usable admits v) :
    ∃ enough, ∀ rounds ≥ enough,
      Visit.loop (h.visitClass name) rounds [v] = h.classAttr name v := by
  by_cases hendless : h.classAttr name v = .error (.fault .endless)
  · obtain ⟨c, hcomes, hcycle⟩ := exists_comes_self hs hname hv hendless
    refine ⟨0, fun rounds _ => ?_⟩
    rw [hendless, Visit.loop_endless_of_circle hcomes.to_reflTransGen hcycle]
  · rw [classAttr, classAttrWithin_eq_walk] at hendless ⊢
    exact (Visit.loopSearches_walk hendless).exists_enough

/-- A lookup is what the loop over pending classes does after enough rounds. -/
theorem loopAttr_getAttr {object name : Value} (hobject : h.Usable admits object)
    (hname : h.Usable admits name) :
    ∃ enough, ∀ rounds ≥ enough, h.loopAttr rounds object name = h.getAttr object name := by
  simp only [getAttr_eq, loopAttr]
  rcases attrFrom_comes h object name with ⟨result, heq⟩ | ⟨v, hfrom⟩
  · exact ⟨0, fun rounds _ => (heq _).trans (heq _).symm⟩
  · simp only [hfrom.attrFrom_eq]
    exact loop_classAttr hs hname (hfrom.startsFrom.usable hs hobject)

omit hs in
/-- The loop of a lookup that comes to a class, and back to it, has no end. -/
theorem Circles.loopAttr_endless {object name c : Value} (hcircles : h.Circles object name c)
    (rounds : Nat) : h.loopAttr rounds object name = .error (.fault .endless) := by
  obtain ⟨v, hfrom, hcomes, hcycle⟩ := hcircles
  rw [loopAttr, hfrom.attrFrom_eq]
  exact Visit.loop_endless_of_circle hcomes hcycle rounds []

/-- A lookup without an end comes to a class that it comes back to. -/
theorem exists_circles {object name : Value} (hobject : h.Usable admits object)
    (hname : h.Usable admits name)
    (hendless : h.getAttr object name = .error (.fault .endless)) :
    ∃ c, h.Circles object name c := by
  rw [getAttr_eq] at hendless
  rcases attrFrom_comes h object name with ⟨result, heq⟩ | ⟨v, hfrom⟩
  · have hgives := attrFrom_gives hs hobject hname fun _ => Gives.ok (a := none) trivial
    rw [heq] at hgives hendless
    exact absurd rfl (hgives.excuse hendless).ne_endless
  · rw [hfrom.attrFrom_eq] at hendless
    obtain ⟨c, hcomes, hcycle⟩ :=
      exists_comes_self hs hname (hfrom.startsFrom.usable hs hobject) hendless
    exact ⟨c, v, hfrom, hcomes.to_reflTransGen, hcycle⟩

/-- A class that a lookup comes back to is its own ancestor, by way of bases in a list. -/
theorem Circles.exists_inheritsBy_list {object name c : Value} (hcircles : h.Circles object name c)
    (hobject : h.Usable admits object) (hname : h.Usable admits name) :
    ∃ v d e, h.SearchesFrom object name v ∧ Relation.ReflTransGen h.Inherits v c ∧
      Relation.ReflTransGen h.Inherits c d ∧ h.InheritsBy .list d e ∧
      Relation.ReflTransGen h.Inherits e c := by
  obtain ⟨v, hfrom, hcomes, hcycle⟩ := hcircles
  obtain ⟨hpath, husable⟩ :=
    inherits_of_comes hs hname (hfrom.startsFrom.usable hs hobject) hcomes
  obtain ⟨d, e, hd, hde, he⟩ := hs.coherent.exists_inheritsBy_list
    (inherits_self_of_comes hs hname husable hcycle)
  exact ⟨v, d, e, hfrom, hpath, hd, hde, he⟩

end Search

/-! ## Runs -/

/-- Looking up an attribute ends with the result that the loop over pending classes has after enough
rounds, which is a fault only if a word is malformed, unless the loop has no end. It has none if and
only if the search, with the name not found and no error met, comes to a class that it comes back
to. Such a class is its own ancestor, by way of bases in a list. -/
theorem Reachable.attr_search_ends {admits : Value → Prop} {h : Heap} (hr : h.Reachable admits)
    {object name : Value} (hobject : h.Usable admits object) (hname : h.Usable admits name) :
    (∃ enough, ∀ rounds ≥ enough, h.loopAttr rounds object name = h.getAttr object name) ∧
    (∀ fault, h.getAttr object name = .error (.fault fault) →
      (∃ v, admits v ∧
        (fault = .malformedTag v.tagBits v.word ∨ fault = .malformedException v.word)) ∨
      fault = .endless) ∧
    (h.getAttr object name = .error (.fault .endless) ↔ ∃ c, h.Circles object name c) ∧
    ((∀ rounds, h.loopAttr rounds object name = .error (.fault .endless)) ↔
      ∃ c, h.Circles object name c) ∧
    ∀ c, h.Circles object name c → ∃ v d e, h.SearchesFrom object name v ∧
      Relation.ReflTransGen h.Inherits v c ∧ Relation.ReflTransGen h.Inherits c d ∧
      h.InheritsBy .list d e ∧ Relation.ReflTransGen h.Inherits e c := by
  obtain ⟨enough, hloop⟩ := loopAttr_getAttr hr.sound hobject hname
  have hresult := hloop enough (Nat.le_refl _)
  refine ⟨⟨enough, hloop⟩, fun fault hfault => ?_,
    ⟨exists_circles hr.sound hobject hname, fun ⟨c, hcircles⟩ => ?_⟩, ⟨fun hnever => ?_, ?_⟩,
    fun c hcircles => hcircles.exists_inheritsBy_list hr.sound hobject hname⟩
  · exact ((getAttr_finds hr.sound hobject hname).excuse hfault).imp_left fun hexcused =>
      hexcused.malformed
  · exact hresult.symm.trans (hcircles.loopAttr_endless enough)
  · exact exists_circles hr.sound hobject hname (hresult.symm.trans (hnever enough))
  · rintro ⟨c, hcircles⟩
    exact hcircles.loopAttr_endless

end Digest

/-- How a class is made that is its own second base: it is put into the list of its bases, after a
class that binds a name. Then an instance of it is made. -/
def selfBasedScript : List (List Value × Operation) :=
  [([], .newDict 0),
   ([], .dictPut (Value.ofSlot 0) (Value.ofInline .smallInt 1) (Value.ofInline .smallInt 7)),
   ([], .newClass ⟨Value.nil, Value.nil, Value.ofSlot 0⟩),
   ([], .newList #[Value.ofSlot 1]),
   ([Value.ofSlot 2], .newDict 0),
   ([], .newClass ⟨Value.nil, Value.ofSlot 2, Value.ofSlot 3⟩),
   ([], .seqAppend (Value.ofSlot 2) (Value.ofSlot 4)),
   ([], .newInstance (Value.ofSlot 4))]

/-- The name that the first base binds is found, and the search for another one has no end. -/
theorem attr_search_ends_self_based : ∃ h : Heap, h.Reachable (fun _ => False) ∧
    (∃ rounds, h.loopAttr rounds (Value.ofSlot 6) (Value.ofInline .smallInt 1) =
      .ok (some (Value.ofInline .smallInt 7))) ∧
    ∀ rounds, h.loopAttr rounds (Value.ofSlot 6) (Value.ofInline .smallInt 2) =
      .error (.fault .endless) := by
  obtain ⟨h, hr, ⟨hobject, hbound, hfree⟩, hfound, ⟨hkind, hi, hattributes⟩, hvisit, hvain⟩ :
      ∃ h : Heap, h.Reachable (fun _ => False) ∧
      (h.passes (Value.ofSlot 6) = true ∧ h.passes (Value.ofInline .smallInt 1) = true ∧
        h.passes (Value.ofInline .smallInt 2) = true) ∧
      h.getAttr (Value.ofSlot 6) (Value.ofInline .smallInt 1) =
        .ok (some (Value.ofInline .smallInt 7)) ∧
      (h.kindOf (Value.ofSlot 6) = .ok .instanceObj ∧
        h.instanceBody (Value.ofSlot 6) = .ok ⟨Value.ofSlot 4, Value.ofSlot 5⟩ ∧
        h.dictGet (Value.ofSlot 5) (Value.ofInline .smallInt 2) = .ok none) ∧
      h.visitClass (Value.ofInline .smallInt 2) (Value.ofSlot 4) =
        .ok (.next [Value.ofSlot 1, Value.ofSlot 4]) ∧
      Visit.walk (h.visitClass (Value.ofInline .smallInt 2)) 1 (Value.ofSlot 1) = .ok none := by
    refine exists_reachable_of_script { crampedSettings with heapSize := 1024 } selfBasedScript ?_
    decide +kernel
  obtain ⟨⟨enough, hloop⟩, -⟩ :=
    hr.attr_search_ends (usable_of_passes hobject) (usable_of_passes hbound)
  obtain ⟨-, -, -, hnever, -⟩ :=
    hr.attr_search_ends (usable_of_passes hobject) (usable_of_passes hfree)
  refine ⟨h, hr, ⟨enough, (hloop enough (Nat.le_refl _)).trans hfound⟩, hnever.mpr ?_⟩
  -- the search comes from the class to itself, its first base having been searched in vain
  have hcomes : Visit.Comes (h.visitClass (Value.ofInline .smallInt 2)) (Value.ofSlot 4)
      (Value.ofSlot 4) :=
    ⟨[Value.ofSlot 1], [], hvisit, by simpa using ⟨1, hvain⟩⟩
  exact ⟨Value.ofSlot 4, Value.ofSlot 4, .instanceObj hkind hi hattributes, .refl, .single hcomes⟩

/-- There is a heap of a run in which looking up an attribute never ends. -/
theorem loopAttr_self_based : ∃ (h : Heap) (object name : Value), h.Reachable (fun _ => False) ∧
    h.Usable (fun _ => False) object ∧ h.Usable (fun _ => False) name ∧
    ∀ rounds, h.loopAttr rounds object name = .error (.fault .endless) := by
  obtain ⟨h, hr, ⟨hobject, hname⟩, hendless⟩ : ∃ h : Heap, h.Reachable (fun _ => False) ∧
      (h.passes (Value.ofSlot 4) = true ∧ h.passes (Value.ofInline .smallInt 2) = true) ∧
      h.getAttr (Value.ofSlot 4) (Value.ofInline .smallInt 2) = .error (.fault .endless) := by
    refine exists_reachable_of_script { crampedSettings with heapSize := 1024 } selfBasedScript ?_
    decide +kernel
  obtain ⟨c, hcircles⟩ :=
    exists_circles hr.sound (usable_of_passes hobject) (usable_of_passes hname) hendless
  exact ⟨h, Value.ofSlot 4, Value.ofInline .smallInt 2, hr, usable_of_passes hobject,
    usable_of_passes hname, hcircles.loopAttr_endless⟩

end Heap

end ObjectHeap
