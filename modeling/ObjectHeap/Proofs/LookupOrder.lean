import ObjectHeap.Proofs.Ancestry
import ObjectHeap.Proofs.Refusals

/-! # The order of lookups

A name that is bound on an object is looked up in one place after another. The places of an
instance are its own attributes and those of its class, and the places of a class are the class
itself and then those of its bases, from left to right. So they stand in depth-first order, each as
often as there are ways to come to it. The lookup ends at the first place that has the name, or
that cannot be searched. The loop over a stack of pending classes does the same, in every heap in
which no class above the object is its own ancestor.
-/

namespace ObjectHeap

/-! ## The first result in a list -/

section FirstResult

variable {α β ε : Type} {f : α → Except ε (Option β)}

theorem findSomeM?_cons (a : α) (rest : List α) :
    (a :: rest).findSomeM? f =
      f a >>= fun found => found.elim (rest.findSomeM? f) fun b => .ok (some b) := by
  rw [List.findSomeM?_cons]
  refine congrArg (f a >>= ·) (funext fun found => ?_)
  cases found <;> rfl

theorem findSomeM?_cons_of_none {a : α} (ha : f a = .ok none) (rest : List α) :
    (a :: rest).findSomeM? f = rest.findSomeM? f := by
  rw [findSomeM?_cons, ha]
  rfl

theorem findSomeM?_cons_of_ne {a : α} (ha : f a ≠ .ok none) (rest : List α) :
    (a :: rest).findSomeM? f = f a := by
  rw [findSomeM?_cons]
  cases hfound : f a with
  | error stop => rfl
  | ok found =>
      cases found with
      | some b => rfl
      | none => exact absurd hfound ha

/-- A search that is not in vain ends at the first item that is not searched in vain. -/
theorem findSomeM?_eq_iff {items : List α} {result : Except ε (Option β)}
    (hresult : result ≠ .ok none) :
    items.findSomeM? f = result ↔ ∃ before a after, items = before ++ a :: after ∧
      f a = result ∧ ∀ x ∈ before, f x = .ok none := by
  constructor
  · intro hfound
    induction items with
    | nil => exact absurd hfound.symm hresult
    | cons first rest ih =>
        by_cases hfirst : f first = .ok none
        · rw [findSomeM?_cons_of_none hfirst] at hfound
          obtain ⟨before, a, after, rfl, ha, hbefore⟩ := ih hfound
          exact ⟨first :: before, a, after, rfl, ha, List.forall_mem_cons.mpr ⟨hfirst, hbefore⟩⟩
        · rw [findSomeM?_cons_of_ne hfirst] at hfound
          exact ⟨[], first, rest, rfl, hfound, List.forall_mem_nil _⟩
  · rintro ⟨before, a, after, rfl, ha, hbefore⟩
    induction before with
    | nil => exact (findSomeM?_cons_of_ne (by rwa [ha]) after).trans ha
    | cons first before ih =>
        obtain ⟨hfirst, hbefore⟩ := List.forall_mem_cons.mp hbefore
        exact (findSomeM?_cons_of_none hfirst _).trans (ih hbefore)

/-- A search through two lists goes on to the second if nothing is found in the first. -/
theorem findSomeM?_append (first second : List α) :
    (first ++ second).findSomeM? f =
      first.findSomeM? f >>= fun found =>
        found.elim (second.findSomeM? f) fun b => .ok (some b) := by
  induction first with
  | nil => rfl
  | cons a first ih =>
      rw [List.cons_append, findSomeM?_cons, findSomeM?_cons, ih, bind_assoc]
      refine congrArg (f a >>= ·) (funext fun found => ?_)
      cases found <;> rfl

/-- Lists are searched one by one. -/
theorem findSomeM?_flatMap {γ : Type} (items : List γ) (g : γ → List α) :
    (items.flatMap g).findSomeM? f = items.findSomeM? fun item => (g item).findSomeM? f := by
  induction items with
  | nil => rfl
  | cons item items ih => rw [List.flatMap_cons, findSomeM?_append, ih, findSomeM?_cons]

theorem findSomeM?_map {γ : Type} (items : List γ) (g : γ → α) :
    (items.map g).findSomeM? f = items.findSomeM? fun item => f (g item) := by
  induction items with
  | nil => rfl
  | cons item items ih => rw [List.map_cons, findSomeM?_cons, ih, findSomeM?_cons]

theorem findSomeM?_congr {g : α → Except ε (Option β)} {items : List α}
    (hitems : ∀ a ∈ items, f a = g a) : items.findSomeM? f = items.findSomeM? g := by
  induction items with
  | nil => rfl
  | cons a items ih =>
      obtain ⟨ha, hrest⟩ := List.forall_mem_cons.mp hitems
      rw [findSomeM?_cons, findSomeM?_cons, ha, ih hrest]

end FirstResult

/-- The search along bases is the one through a list. -/
theorem Heap.firstFound_eq (search : Value → Except Stop (Option Value)) (items : List Value) :
    firstFound search items = items.findSomeM? search := by
  induction items with
  | nil => rfl
  | cons v items ih =>
      rw [firstFound, ih, findSomeM?_cons]
      refine congrArg (search v >>= ·) (funext fun found => ?_)
      cases found <;> rfl

/-! ## Searches with a stack -/

namespace Visit

/-- What a value gives by itself, without its bases. -/
def own : Visit → Option Value
  | .found value => some value
  | .next _ => none

/-- The loop over a stack of pending values, with its top at the end. Bases are pushed from last to
first. -/
def stackLoop (visit : Value → Except Stop Visit) :
    (rounds : Nat) → (pending : Array Value) → Except Stop (Option Value)
  | 0, _ => .error (.fault .endless)
  | rounds + 1, pending => pending.back?.elim (.ok none) fun v => do
    match ← visit v with
    | .found value => return some value
    | .next bases => stackLoop visit rounds (pending.pop ++ bases.reverse)

/-- The stack holds the pending values in reverse. -/
theorem stackLoop_eq_loop (visit : Value → Except Stop Visit) (rounds : Nat)
    (pending : List Value) :
    stackLoop visit rounds pending.reverse.toArray = loop visit rounds pending := by
  induction rounds generalizing pending with
  | zero => rfl
  | succ rounds ih =>
      cases pending with
      | nil => rfl
      | cons v pending =>
          have hback : (v :: pending).reverse.toArray.back? = some v := by simp
          have hpop (bases : List Value) :
              (v :: pending).reverse.toArray.pop ++ bases.reverse =
                (bases ++ pending).reverse.toArray := by simp
          rw [stackLoop, hback, Option.elim_some]
          cases hv : visit v with
          | error stop => rw [loop_of_error hv]; rfl
          | ok answer =>
              cases answer with
              | found value => rw [loop_of_found hv]; rfl
              | next bases =>
                  rw [loop_of_next hv, ← ih, ← hpop]
                  rfl

end Visit

namespace Heap

/-! ## Chains of bases that end -/

/-- Reads the bases of a class. Only a reference has any. -/
def readBases (h : Heap) (v : Value) : Except Stop (List Value) := do
  let body ← h.classBody v
  if body.bases.isRef then return (← h.objects body.bases).toList else return []

/-- The bases of a class, as far as they can be read. -/
def basesOf (h : Heap) (v : Value) : List Value := (h.readBases v).toOption.getD []

/-- Whether all chains of bases that start from a value end. -/
def Grounded (h : Heap) (v : Value) : Prop := Acc (fun base v => base ∈ h.basesOf v) v

section Grounded

variable {h : Heap} {v : Value}

/-- Bases belong to the slot of a class. -/
theorem exists_slot_of_mem_basesOf {base : Value} (hbase : base ∈ h.basesOf v) :
    ∃ slot < h.slots.size, v.slot? = some slot ∧
      ∀ v', v'.slot? = some slot → base ∈ h.basesOf v' := by
  cases hc : h.classBody v with
  | error stop =>
      rw [basesOf, readBases, hc] at hbase
      cases hbase
  | ok c =>
      obtain ⟨slot, b, hslot, hb, hkind, hbody⟩ := classBody_eq_ok hc
      refine ⟨slot, lt_size_of_block? hb, hslot, fun v' hslot' => ?_⟩
      rw [basesOf, readBases, classBody_eq hslot' hb hkind hbody]
      rwa [basesOf, readBases, hc] at hbase

/-- A recursion along bases whose depth is bounded meets its equation without the bound at values
from which all chains of bases end, if it may go deeper than there are slots. -/
theorem Grounded.eq_step {β : Type} {step : (Value → β) → Value → β} {within : Nat → Value → β}
    (hv : h.Grounded v) (hwithin : ∀ depth v, within (depth + 1) v = step (within depth) v)
    (hlocal : ∀ f g v, (∀ base ∈ h.basesOf v, f base = g base) → step f v = step g v) :
    within (h.slots.size + 1) v = step (within (h.slots.size + 1)) v := by
  have hplace (v base : Value) (hbase : base ∈ h.basesOf v) :
      ∃ slot < h.slots.size, v.slot? = some slot := by
    obtain ⟨slot, hlt, hslot, _⟩ := exists_slot_of_mem_basesOf hbase
    exact ⟨slot, hlt, hslot⟩
  have hshared (v v' base : Value) (hbase : base ∈ h.basesOf v) (hsame : v'.slot? = v.slot?) :
      base ∈ h.basesOf v' := by
    obtain ⟨slot, _, hslot, hshared⟩ := exists_slot_of_mem_basesOf hbase
    exact hshared v' (hsame.trans hslot)
  obtain ⟨rank, hrank, hle⟩ := exists_slot_rank hplace hshared
  -- depths above the rank of a value make no difference to it
  have hstable (depth depth' : Nat) (v : Value) (hv : h.Grounded v) (hdepth : rank v < depth)
      (hdepth' : rank v < depth') : within depth v = within depth' v := by
    induction depth generalizing v depth' with
    | zero => exact absurd hdepth (Nat.not_lt_zero _)
    | succ depth ih =>
        obtain ⟨depth', rfl⟩ := Nat.exists_eq_succ_of_ne_zero (Nat.ne_zero_of_lt hdepth')
        rw [hwithin, Nat.succ_eq_add_one, hwithin]
        refine hlocal _ _ v fun base hbase => ?_
        have hless := hrank v base hbase hv
        exact ih depth' base (hv.inv hbase) (by omega) (by omega)
  rw [hwithin]
  refine hlocal _ _ v fun base hbase => ?_
  have hless := hrank v base hbase hv
  have hbound := hle v
  exact hstable _ _ base (hv.inv hbase) (by omega) (by omega)

end Grounded

/-! ## Depth-first order -/

/-- A value and its bases in depth-first order, for chains of bases below a given length. -/
def lineageWithin (h : Heap) : (length : Nat) → Value → List Value
  | 0, _ => []
  | length + 1, v => v :: (h.basesOf v).flatMap (h.lineageWithin length)

/-- A value and its bases in depth-first order. -/
def lineage (h : Heap) (v : Value) : List Value := h.lineageWithin (h.slots.size + 1) v

/-- The lineage of a class is the class and then the lineages of its bases in order. -/
theorem Grounded.lineage_eq {h : Heap} {v : Value} (hv : h.Grounded v) :
    h.lineage v = v :: (h.basesOf v).flatMap h.lineage :=
  @Grounded.eq_step h v _ (fun f v => v :: (h.basesOf v).flatMap f) h.lineageWithin hv
    (fun _ _ => rfl) fun _ _ _ hsame =>
      congrArg _ (congrArg List.flatten (List.map_congr_left hsame))

section Digest

variable [Digest] {h : Heap} {name v : Value}

/-- What a class gives by itself, without its bases. -/
def ownAttr (h : Heap) (name v : Value) : Except Stop (Option Value) :=
  Visit.own <$> h.visitClass name v

theorem basesOf_of_visitClass {bases : List Value}
    (hvisit : h.visitClass name v = .ok (.next bases)) : h.basesOf v = bases := by
  obtain ⟨c, hc, hvisit⟩ := bind_eq_ok_iff.mp hvisit
  obtain ⟨found, _, hvisit⟩ := bind_eq_ok_iff.mp hvisit
  rw [basesOf, readBases, hc]
  cases found with
  | some value => cases hvisit
  | none =>
      simp only [bind, Except.bind] at hvisit ⊢
      split at hvisit
      next href =>
        obtain ⟨items, hitems, hnext⟩ := bind_eq_ok_iff.mp hvisit
        cases hnext
        rw [if_pos href, hitems]
        rfl
      next hinline =>
        cases hvisit
        rw [if_neg hinline]
        rfl

/-- One level of the search depends on what the search makes of the bases. -/
theorem follow_congr {search search' : Value → Except Stop (Option Value)}
    (hsame : ∀ base ∈ h.basesOf v, search base = search' base) :
    h.visitClass name v >>= Visit.follow search = h.visitClass name v >>= Visit.follow search' := by
  cases hvisit : h.visitClass name v with
  | error stop => rfl
  | ok answer =>
      cases answer with
      | found value => rfl
      | next bases =>
          rw [basesOf_of_visitClass hvisit] at hsame
          simp only [bind, Except.bind, Visit.follow, firstFound_eq]
          exact findSomeM?_congr hsame

/-- Whether a search looks a name up on a class, and then on its bases from left to right, where all
chains of bases end. -/
def Descends (h : Heap) (name : Value) (search : Value → Except Stop (Option Value)) : Prop :=
  ∀ v, h.Grounded v → search v = h.visitClass name v >>= Visit.follow search

/-- A class is searched before its bases, and these in order. -/
theorem descends_classAttr (h : Heap) (name : Value) : h.Descends name (h.classAttr name) := by
  intro v hv
  refine hv.eq_step (fun depth v => ?_) fun _ _ _ => follow_congr
  rw [classAttrWithin_eq_walk, Visit.walk_succ, funext (classAttrWithin_eq_walk h name depth)]

/-- The recursion along bases has one solution only. -/
theorem Descends.eq_classAttr {search : Value → Except Stop (Option Value)}
    (hsearch : h.Descends name search) (hv : h.Grounded v) : search v = h.classAttr name v := by
  induction hv with
  | intro v hbases ih =>
      have hv : h.Grounded v := ⟨v, hbases⟩
      rw [hsearch v hv, descends_classAttr h name v hv]
      exact follow_congr ih

/-- Searching a class and its bases is going through them in depth-first order. -/
theorem Grounded.findSomeM?_lineage (hv : h.Grounded v) :
    (h.lineage v).findSomeM? (h.ownAttr name) = h.classAttr name v := by
  suffices hsearch : h.Descends name fun v => (h.lineage v).findSomeM? (h.ownAttr name) from
    hsearch.eq_classAttr hv
  intro v hv
  dsimp only
  rw [hv.lineage_eq, findSomeM?_cons, findSomeM?_flatMap, ownAttr]
  cases hvisit : h.visitClass name v with
  | error stop => rfl
  | ok answer =>
      cases answer with
      | found value => rfl
      | next bases =>
          rw [basesOf_of_visitClass hvisit]
          exact (firstFound_eq _ bases).symm

/-- The loop searches a grounded class, and then goes on, as the recursion does. -/
theorem Grounded.loopSearches (hv : h.Grounded v) :
    Visit.LoopSearches (h.visitClass name) v (h.classAttr name v) := by
  induction hv with
  | intro v hbases ih =>
      have hv : h.Grounded v := ⟨v, hbases⟩
      rw [descends_classAttr h name v hv]
      refine Visit.loopSearches_follow (fun _ => True) (fun _ => trivial)
        (fun bases hvisit base hbase _ => ?_) trivial
      exact ih base (by rwa [basesOf_of_visitClass hvisit])

end Digest

/-! ## Places -/

/-- Where names are looked up. -/
inductive Place where
  /-- A dict that binds names. -/
  | dict (v : Value)
  /-- A class, without its bases. -/
  | classAlone (v : Value)

/-- The places where the names of an instance, class or module are looked up, in order. -/
def places (h : Heap) (object : Value) : Except Stop (List Place) := do
  match ← h.kindOf object with
  | .instanceObj =>
    let body ← h.instanceBody object
    return .dict body.attributes :: (h.lineage body.classRef).map .classAlone
  | .moduleObj => return [.dict (← h.moduleBody object).globals]
  | .classObj => return (h.lineage object).map .classAlone
  | found => refuse (.typeMismatch "instance, class or module" found)

/-- Only instances, classes and modules have places. -/
theorem places_refused_iff {h : Heap} {object : Value} {r : Refusal} :
    h.places object = .error (.refused r) ↔ ∃ kind, h.kindOf object = .ok kind ∧
      kind ≠ .instanceObj ∧ kind ≠ .moduleObj ∧ kind ≠ .classObj ∧
      r = .typeMismatch "instance, class or module" kind := by
  rw [places, liftM_bind_refused_iff]
  refine exists_congr fun kind => and_congr_right fun hkind => ?_
  split
  next =>
    rw [bind_refused_iff, instanceBody, recordPart_refused_iff rfl, hkind]
    simp [pure, Except.pure]
  next =>
    rw [bind_refused_iff, moduleBody, recordPart_refused_iff rfl, hkind]
    simp [pure, Except.pure]
  next => simp [pure, Except.pure]
  next hinstance hmodule hclass =>
    constructor
    · rintro ⟨⟩
      exact ⟨hinstance, hmodule, hclass, rfl⟩
    · rintro ⟨_, _, _, rfl⟩
      rfl

section Look

variable [Digest]

/-- Looks a name up in one place. -/
def look (h : Heap) (name : Value) : Place → Except Stop (Option Value)
  | .dict v => h.dictGet v name
  | .classAlone v => h.ownAttr name v

/-- Why a lookup may be refused in one place. In a class, a name that is bound there is found
before the bases are read. -/
inductive Meets (h : Heap) (name : Value) : Place → Refusal → Prop
  | notDict {v : Value} {kind : Kind} (hkind : h.kindOf v = .ok kind) (hdict : kind ≠ .dict) :
      Meets h name (.dict v) (.typeMismatch "dict" kind)
  | unhashable {v : Value} {kind : Kind} (hdict : h.kindOf v = .ok .dict)
      (hname : h.hashOf name = .error (.refused (.unhashable kind))) :
      Meets h name (.dict v) (.unhashable kind)
  | notClass {v : Value} {kind : Kind} (hkind : h.kindOf v = .ok kind) (hclass : kind ≠ .classObj) :
      Meets h name (.classAlone v) (.typeMismatch "class" kind)
  | methods {v : Value} {c : ClassBody} {r : Refusal} (hc : h.classBody v = .ok c)
      (hmethods : Meets h name (.dict c.methods) r) : Meets h name (.classAlone v) r
  | bases {v : Value} {c : ClassBody} {kind : Kind} (hc : h.classBody v = .ok c)
      (hvain : h.dictGet c.methods name = .ok none) (href : c.bases.isRef = true)
      (hkind : h.kindOf c.bases = .ok kind) (hlist : kind ≠ .list) (htuple : kind ≠ .tuple) :
      Meets h name (.classAlone v) (.typeMismatch "list or tuple" kind)

variable {h : Heap} {name v : Value} {r : Refusal}

theorem dictGet_refused_iff_meets :
    h.dictGet v name = .error (.refused r) ↔ h.Meets name (.dict v) r := by
  rw [dictGet_refused_iff]
  constructor
  · rintro (⟨kind, hkind, hdict, rfl⟩ | ⟨hdict, hname⟩)
    · exact .notDict hkind hdict
    · obtain ⟨kind, rfl⟩ := exists_unhashable_of_hashWithin hname
      exact .unhashable hdict hname
  · intro hmeets
    cases hmeets with
    | notDict hkind hdict => exact Or.inl ⟨_, hkind, hdict, rfl⟩
    | unhashable hdict hname => exact Or.inr ⟨hdict, hname⟩

theorem visitClass_refused_iff_meets :
    h.visitClass name v = .error (.refused r) ↔ h.Meets name (.classAlone v) r := by
  rw [visitClass, bind_refused_iff, classBody, recordPart_refused_iff rfl]
  constructor
  · rintro (⟨kind, hkind, hclass, rfl⟩ | ⟨c, hc, hrest⟩)
    · exact .notClass hkind hclass
    · rw [bind_refused_iff, dictGet_refused_iff_meets] at hrest
      rcases hrest with hmethods | ⟨found, hfound, hrest⟩
      · exact .methods hc hmethods
      · cases found with
        | some value => cases hrest
        | none =>
            dsimp only at hrest
            split at hrest
            next href =>
              obtain ⟨kind, hkind, hlist, htuple, rfl⟩ :=
                objects_refused_iff.mp (map_refused_iff.mp hrest)
              exact .bases hc hfound href hkind hlist htuple
            next => cases hrest
  · intro hmeets
    cases hmeets with
    | notClass hkind hclass => exact Or.inl ⟨_, hkind, hclass, rfl⟩
    | methods hc hmethods =>
        exact Or.inr ⟨_, hc, bind_refused_iff.mpr (Or.inl (dictGet_refused_iff_meets.mpr hmethods))⟩
    | bases hc hvain href hkind hlist htuple =>
        refine Or.inr ⟨_, hc, ?_⟩
        rw [hvain]
        dsimp only [bind, Except.bind]
        rw [if_pos href, objects_refused_iff.mpr ⟨_, hkind, hlist, htuple, rfl⟩]

/-- A place is refused for just what it meets. -/
theorem look_refused_iff {place : Place} :
    h.look name place = .error (.refused r) ↔ h.Meets name place r := by
  cases place with
  | dict v => exact dictGet_refused_iff_meets
  | classAlone v => exact map_refused_iff.trans visitClass_refused_iff_meets

/-- Looking a name up on an object is going through its places. -/
theorem getAttr_eq_places {object : Value}
    (hwf : ∀ v, h.StartsFrom object v → h.Grounded v) :
    h.getAttr object name = h.places object >>= fun places => places.findSomeM? (h.look name) := by
  have hlineage (v : Value) (hstarts : h.StartsFrom object v) :
      h.classAttr name v = ((h.lineage v).map .classAlone).findSomeM? (h.look name) := by
    rw [findSomeM?_map]
    exact (hwf v hstarts).findSomeM?_lineage.symm
  rw [getAttr_eq, attrFrom, places]
  cases hkind : h.kindOf object with
  | error fault => rfl
  | ok kind =>
      simp only [liftM_ok_bind]
      cases kind with
      | instanceObj =>
          cases hi : h.instanceBody object with
          | error stop => rfl
          | ok i =>
              obtain ⟨slot, b, hslot, hb, _, hbody⟩ := instanceBody_eq_ok hi
              have hclass := hlineage i.classRef (Or.inr ⟨slot, b, i, hslot, hb, hbody, rfl⟩)
              simp only [bind, Except.bind, pure, Except.pure]
              rw [findSomeM?_cons, ← hclass]
              refine congrArg (h.dictGet i.attributes name >>= ·) (funext fun found => ?_)
              cases found <;> rfl
      | moduleObj =>
          cases h.moduleBody object with
          | error stop => rfl
          | ok m =>
              simp only [bind, Except.bind, pure, Except.pure]
              rw [findSomeM?_cons, look]
              cases h.dictGet m.globals name with
              | error stop => rfl
              | ok found => cases found <;> rfl
      | classObj => exact hlineage object (Or.inl rfl)
      | _ => rfl

/-- A lookup is refused if the object has no attributes, or if a place is refused before the
name is found. -/
theorem getAttr_refused_iff {object : Value} (hwf : ∀ v, h.StartsFrom object v → h.Grounded v) :
    h.getAttr object name = .error (.refused r) ↔
      (∃ kind, h.kindOf object = .ok kind ∧ kind ≠ .instanceObj ∧ kind ≠ .moduleObj ∧
        kind ≠ .classObj ∧ r = .typeMismatch "instance, class or module" kind) ∨
      ∃ before place after, h.places object = .ok (before ++ place :: after) ∧
        h.Meets name place r ∧ ∀ earlier ∈ before, h.look name earlier = .ok none := by
  rw [getAttr_eq_places hwf, bind_refused_iff, places_refused_iff]
  refine or_congr_right ⟨?_, ?_⟩
  · rintro ⟨places, hplaces, hfirst⟩
    obtain ⟨before, place, after, rfl, hlook, hbefore⟩ :=
      (findSomeM?_eq_iff (fun heq => by cases heq)).mp hfirst
    exact ⟨before, place, after, hplaces, look_refused_iff.mp hlook, hbefore⟩
  · rintro ⟨before, place, after, hplaces, hmeets, hbefore⟩
    exact ⟨_, hplaces, (findSomeM?_eq_iff (fun heq => by cases heq)).mpr
      ⟨before, place, after, rfl, look_refused_iff.mpr hmeets, hbefore⟩⟩

/-- Looks a name up on an instance, class or module, within a number of rounds of the loop over a
stack of pending classes. -/
def stackAttr (h : Heap) (rounds : Nat) (object name : Value) : Except Stop (Option Value) :=
  h.attrFrom (fun v => Visit.stackLoop (h.visitClass name) rounds #[v]) object name

/-- The lookup with a stack and the one by recursion agree, given enough rounds. -/
theorem stackAttr_getAttr {object : Value} (hwf : ∀ v, h.StartsFrom object v → h.Grounded v) :
    ∃ enough, ∀ rounds ≥ enough, h.stackAttr rounds object name = h.getAttr object name := by
  simp only [getAttr_eq, stackAttr]
  rcases attrFrom_comes h object name with ⟨result, heq⟩ | ⟨v, hfrom⟩
  · exact ⟨0, fun rounds _ => (heq _).trans (heq _).symm⟩
  · have hsearches : Visit.LoopSearches (h.visitClass name) v (h.classAttr name v) :=
      (hwf v hfrom.startsFrom).loopSearches
    obtain ⟨enough, hloop⟩ := hsearches.exists_enough
    refine ⟨enough, fun rounds hrounds => ?_⟩
    rw [hfrom.attrFrom_eq, hfrom.attrFrom_eq, ← hloop rounds hrounds]
    exact Visit.stackLoop_eq_loop _ rounds [v]

/-- Looking a name up on an object gives what the loop over a stack gives after enough rounds, if
all chains of bases from the object end. It is the recursion from a class to its bases, which has
one solution only, and it goes through the places of the object in depth-first order. So it is
refused if and only if it meets a reason at a place before which all places are searched in vain.
-/
theorem getAttr_depth_first {object : Value} (name : Value)
    (hwf : ∀ v, h.StartsFrom object v → h.Grounded v) :
    (∃ enough, ∀ rounds ≥ enough, h.stackAttr rounds object name = h.getAttr object name) ∧
    h.Descends name (h.classAttr name) ∧
    (∀ search, h.Descends name search → h.getAttr object name = h.attrFrom search object name) ∧
    (∀ v, h.Grounded v → h.lineage v = v :: (h.basesOf v).flatMap h.lineage) ∧
    (h.getAttr object name =
      h.places object >>= fun places => places.findSomeM? (h.look name)) ∧
    ∀ r, h.getAttr object name = .error (.refused r) ↔
      (∃ kind, h.kindOf object = .ok kind ∧ kind ≠ .instanceObj ∧ kind ≠ .moduleObj ∧
        kind ≠ .classObj ∧ r = .typeMismatch "instance, class or module" kind) ∨
      ∃ before place after, h.places object = .ok (before ++ place :: after) ∧
        h.Meets name place r ∧ ∀ earlier ∈ before, h.look name earlier = .ok none := by
  refine ⟨stackAttr_getAttr hwf, descends_classAttr h name, fun search hsearch => ?_,
    fun v hv => hv.lineage_eq, getAttr_eq_places hwf, fun r => getAttr_refused_iff hwf⟩
  rw [getAttr_eq]
  rcases attrFrom_comes h object name with ⟨result, heq⟩ | ⟨v, hfrom⟩
  · rw [heq, heq]
  · rw [hfrom.attrFrom_eq, hfrom.attrFrom_eq, hsearch.eq_classAttr (hwf v hfrom.startsFrom)]

end Look

/-- A lookup on a class starts from it. -/
theorem StartsFrom.eq_of_isOk {h : Heap} {object v : Value} (hstarts : h.StartsFrom object v)
    (hclass : (h.classBody object).isOk = true) : v = object := by
  rcases hstarts with rfl | ⟨slot, b, i, hslot, hb, hbody, _⟩
  · rfl
  · cases hc : h.classBody object with
    | error stop =>
        rw [hc] at hclass
        cases hclass
    | ok c =>
        obtain ⟨slot', b', hslot', hb', _, hbody'⟩ := classBody_eq_ok hc
        cases hslot.symm.trans hslot'
        cases hb.symm.trans hb'
        cases hbody.symm.trans hbody'

/-- How a class is made with two bases that have one base in common, which binds a name, and with a
base that is no class. The second base binds the name as well. -/
def diamondScript : List (List Value × Operation) :=
  [([], .newDict 0),
   ([], .dictPut (Value.ofSlot 0) (Value.ofInline .smallInt 1) (Value.ofInline .smallInt 7)),
   ([], .newClass ⟨Value.nil, Value.nil, Value.ofSlot 0⟩),
   ([], .newTuple #[Value.ofSlot 1]),
   ([], .newDict 0),
   ([], .newClass ⟨Value.nil, Value.ofSlot 2, Value.ofSlot 3⟩),
   ([], .newDict 0),
   ([], .dictPut (Value.ofSlot 5) (Value.ofInline .smallInt 1) (Value.ofInline .smallInt 8)),
   ([], .newClass ⟨Value.nil, Value.ofSlot 2, Value.ofSlot 5⟩),
   ([], .newTuple #[Value.ofSlot 4, Value.ofSlot 6, Value.ofInline .smallInt 5]),
   ([], .newClass ⟨Value.nil, Value.ofSlot 7, Value.ofSlot 3⟩)]

theorem getAttr_depth_first_diamond : ∃ h : Heap, h.Reachable (fun _ => False) ∧
    (∀ v, h.StartsFrom (Value.ofSlot 8) v → h.Grounded v) ∧
    h.lineage (Value.ofSlot 8) = [Value.ofSlot 8, Value.ofSlot 4, Value.ofSlot 1, Value.ofSlot 6,
      Value.ofSlot 1, Value.ofInline .smallInt 5] ∧
    (∃ rounds, h.stackAttr rounds (Value.ofSlot 8) (Value.ofInline .smallInt 1) =
      .ok (some (Value.ofInline .smallInt 7))) ∧
    ∃ rounds, h.stackAttr rounds (Value.ofSlot 8) (Value.ofInline .smallInt 2) =
      .error (.refused (.typeMismatch "class" .smallInt)) := by
  obtain ⟨h, hr, ⟨hclass, hD, hB, hC, hA, hno⟩, hlineage, hfound, hrefused⟩ : ∃ h : Heap,
      h.Reachable (fun _ => False) ∧
      ((h.classBody (Value.ofSlot 8)).isOk = true ∧
        h.basesOf (Value.ofSlot 8) = [Value.ofSlot 4, Value.ofSlot 6, Value.ofInline .smallInt 5] ∧
        h.basesOf (Value.ofSlot 4) = [Value.ofSlot 1] ∧
        h.basesOf (Value.ofSlot 6) = [Value.ofSlot 1] ∧
        h.basesOf (Value.ofSlot 1) = [] ∧ h.basesOf (Value.ofInline .smallInt 5) = []) ∧
      h.lineage (Value.ofSlot 8) = [Value.ofSlot 8, Value.ofSlot 4, Value.ofSlot 1, Value.ofSlot 6,
        Value.ofSlot 1, Value.ofInline .smallInt 5] ∧
      h.getAttr (Value.ofSlot 8) (Value.ofInline .smallInt 1) =
        .ok (some (Value.ofInline .smallInt 7)) ∧
      h.getAttr (Value.ofSlot 8) (Value.ofInline .smallInt 2) =
        .error (.refused (.typeMismatch "class" .smallInt)) := by
    refine exists_reachable_of_script Settings.standard diamondScript ?_
    decide +kernel
  have hgrounded (v : Value) (hnone : h.basesOf v = []) : h.Grounded v :=
    ⟨v, fun base hbase => by simp [hnone] at hbase⟩
  have hmiddle (v : Value) (hone : h.basesOf v = [Value.ofSlot 1]) : h.Grounded v := by
    refine ⟨v, fun base hbase => ?_⟩
    obtain rfl : base = Value.ofSlot 1 := by simpa [hone] using hbase
    exact hgrounded _ hA
  have hwf (v : Value) (hstarts : h.StartsFrom (Value.ofSlot 8) v) : h.Grounded v := by
    obtain rfl := hstarts.eq_of_isOk hclass
    refine ⟨_, fun base hbase => ?_⟩
    rw [hD] at hbase
    fin_cases hbase
    · exact hmiddle _ hB
    · exact hmiddle _ hC
    · exact hgrounded _ hno
  obtain ⟨rounds, hrounds⟩ := (getAttr_depth_first (Value.ofInline .smallInt 1) hwf).1
  obtain ⟨rounds', hrounds'⟩ := (getAttr_depth_first (Value.ofInline .smallInt 2) hwf).1
  exact ⟨h, hr, hwf, hlineage, ⟨rounds, (hrounds rounds (Nat.le_refl _)).trans hfound⟩,
    rounds', (hrounds' rounds' (Nat.le_refl _)).trans hrefused⟩

end Heap

end ObjectHeap
