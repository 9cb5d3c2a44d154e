import ObjectHeap.Proofs.FirstFit

/-! # Returning extents

A tidy free list is a canonical form: two of them with the same bytes are equal. Hence it does
not matter in which order extents are returned, although the lists in between differ and the
neighbours that are joined are not the same. A returned extent is compared with two neighbours
only. As the list is in order and without overlaps, these are the ones that share a byte with it
if any free extent does.
-/

namespace ObjectHeap

/-! ## The canonical form of a set of bytes -/

section Canonical

variable {e e' : Extent} {rest rest' : List Extent} {byte : Nat}

/-- No byte lies below the first extent. -/
theorem offset_le_of_mem_bytesOf (hapart : (e :: rest).Pairwise fun x y => x.stop < y.offset)
    (hbyte : byte ∈ bytesOf (e :: rest)) : e.offset ≤ byte := by
  obtain ⟨x, hx, hin⟩ := mem_bytesOf.mp hbyte
  rw [Extent.mem_bytes] at hin
  rcases List.mem_cons.mp hx with rfl | hx
  · exact hin.1
  · have hgap := (List.pairwise_cons.mp hapart).1 x hx
    unfold Extent.stop at hgap
    omega

/-- The byte past the first extent is in none. -/
theorem stop_notMem_bytesOf (hapart : (e :: rest).Pairwise fun x y => x.stop < y.offset) :
    e.stop ∉ bytesOf (e :: rest) := by
  intro hstop
  obtain ⟨x, hx, hin⟩ := mem_bytesOf.mp hstop
  rw [Extent.mem_bytes] at hin
  rcases List.mem_cons.mp hx with rfl | hx
  · exact Nat.lt_irrefl _ hin.2
  · have hgap := (List.pairwise_cons.mp hapart).1 x hx
    omega

/-- An extent that starts with the first one and whose bytes are all there ends no later. -/
theorem stop_le_of_bytes_subset (hapart : (e :: rest).Pairwise fun x y => x.stop < y.offset)
    (hoffset : e'.offset = e.offset) (hsubset : ∀ byte ∈ e'.bytes, byte ∈ bytesOf (e :: rest)) :
    e'.stop ≤ e.stop := by
  by_contra hpast
  refine stop_notMem_bytesOf hapart (hsubset e.stop (Extent.mem_bytes.mpr ⟨?_, by omega⟩))
  exact hoffset ▸ Nat.le_add_right ..

theorem head_eq_of_bytesOf_eq (hapart : (e :: rest).Pairwise fun x y => x.stop < y.offset)
    (hapart' : (e' :: rest').Pairwise fun x y => x.stop < y.offset) (hpos : 0 < e.len)
    (hpos' : 0 < e'.len) (hbytes : bytesOf (e :: rest) = bytesOf (e' :: rest')) : e = e' := by
  have hmem : ∀ byte ∈ e.bytes, byte ∈ bytesOf (e' :: rest') := fun byte hbyte =>
    hbytes ▸ mem_bytesOf.mpr ⟨e, List.mem_cons_self, hbyte⟩
  have hmem' : ∀ byte ∈ e'.bytes, byte ∈ bytesOf (e :: rest) := fun byte hbyte =>
    hbytes ▸ mem_bytesOf.mpr ⟨e', List.mem_cons_self, hbyte⟩
  have hfirst (x : Extent) (hx : 0 < x.len) : x.offset ∈ x.bytes :=
    Extent.mem_bytes.mpr ⟨Nat.le_refl _, Nat.lt_add_of_pos_right hx⟩
  have hoffset : e.offset = e'.offset := Nat.le_antisymm
    (offset_le_of_mem_bytesOf hapart (hmem' _ (hfirst e' hpos')))
    (offset_le_of_mem_bytesOf hapart' (hmem _ (hfirst e hpos)))
  have hstop : e.stop = e'.stop := Nat.le_antisymm
    (stop_le_of_bytes_subset hapart' hoffset hmem)
    (stop_le_of_bytes_subset hapart hoffset.symm hmem')
  obtain ⟨offset, len⟩ := e
  obtain ⟨offset', len'⟩ := e'
  simp only [Extent.stop] at hoffset hstop
  simp only [Extent.mk.injEq]
  omega

/-- Extents in order and with gaps between them are determined by their bytes. -/
theorem eq_of_bytesOf_eq {first second : List Extent}
    (hfirst : first.Pairwise fun x y => x.stop < y.offset)
    (hsecond : second.Pairwise fun x y => x.stop < y.offset)
    (hpos : ∀ x ∈ first, 0 < x.len) (hpos' : ∀ x ∈ second, 0 < x.len)
    (hbytes : bytesOf first = bytesOf second) : first = second := by
  -- a list of extents without bytes is empty
  have hnone {e : Extent} {rest : List Extent} (hlen : 0 < e.len) : bytesOf (e :: rest) ≠ 0 := by
    intro hzero
    have hcard := congrArg Multiset.card hzero
    rw [bytesOf_cons, Multiset.card_add, Extent.card_bytes, Multiset.card_zero] at hcard
    omega
  induction first generalizing second with
  | nil =>
      cases second with
      | nil => rfl
      | cons e' rest' => exact absurd hbytes.symm (hnone (hpos' e' List.mem_cons_self))
  | cons e rest ih =>
      cases second with
      | nil => exact absurd hbytes (hnone (hpos e List.mem_cons_self))
      | cons e' rest' =>
          obtain rfl := head_eq_of_bytesOf_eq hfirst hsecond (hpos e List.mem_cons_self)
            (hpos' e' List.mem_cons_self) hbytes
          rw [bytesOf_cons, bytesOf_cons, add_right_inj] at hbytes
          rw [ih (List.pairwise_cons.mp hfirst).2 (List.pairwise_cons.mp hsecond).2
            (fun x hx => hpos x (List.mem_cons_of_mem _ hx))
            (fun x hx => hpos' x (List.mem_cons_of_mem _ hx)) hbytes]

theorem bytesOf_perm {first second : List Extent} (h : first.Perm second) :
    bytesOf first = bytesOf second :=
  (h.map Extent.bytes).sum_eq

end Canonical

namespace Arena

variable {a b : Arena} {size : Nat} {e : Extent} {extents : List Extent}

/-- A tidy arena is determined by the bytes that are free. -/
theorem Tidy.eq_of_bytes_eq (ha : a.Tidy size) (hb : b.Tidy size) (hbytes : a.bytes = b.bytes) :
    a = b := by
  have hextents : a.extents = b.extents :=
    eq_of_bytesOf_eq ha.apart hb.apart ha.positive hb.positive hbytes
  have hfree : a.freeBytes = b.freeBytes := by rw [ha.freeBytes_eq, hb.freeBytes_eq, hextents]
  obtain ⟨extents, freeBytes⟩ := a
  obtain ⟨extents', freeBytes'⟩ := b
  exact congrArg₂ Arena.mk hextents hfree

/-! ## Several releases -/

def releaseAll (a : Arena) (extents : List Extent) : Except Fault Arena :=
  extents.foldlM release a

/-- Extents of the arena that share no byte with each other or with the free ones can all be
returned, and then their bytes are free as well. -/
theorem releaseAll_spec (h : a.Tidy size) (hsize : size < span32)
    (hpos : ∀ e ∈ extents, 0 < e.len) (hstop : ∀ e ∈ extents, e.stop ≤ size)
    (hnodup : (bytesOf extents + a.bytes).Nodup) :
    ∃ left, a.releaseAll extents = .ok left ∧ left.Tidy size ∧
      left.bytes = bytesOf extents + a.bytes := by
  induction extents generalizing a with
  | nil => exact ⟨a, rfl, h, (zero_add _).symm⟩
  | cons e rest ih =>
      rw [bytesOf_cons, add_right_comm, add_comm] at hnodup
      have howned : Disjoint e.bytes a.bytes :=
        (Multiset.nodup_add.mp (Multiset.nodup_add.mp hnodup).2.1).2.2
      obtain ⟨next, hrelease, hreleases⟩ := release_spec h hsize (hpos e List.mem_cons_self)
        (hstop e List.mem_cons_self) howned
      rw [← hreleases.bytes_eq] at hnodup
      obtain ⟨left, hrest, htidy, hbytes⟩ := ih hreleases.tidy
        (fun x hx => hpos x (List.mem_cons_of_mem _ hx))
        (fun x hx => hstop x (List.mem_cons_of_mem _ hx)) hnodup
      refine ⟨left, ?_, htidy, ?_⟩
      · rw [releaseAll, List.foldlM_cons, hrelease]
        exact hrest
      · rw [hbytes, hreleases.bytes_eq, bytesOf_cons]
        abel

/-! ## Extents that overlap free ones -/

/-- Whether two extents overlap: neither ends before the other starts. -/
def Overlaps (e x : Extent) : Prop := ¬ (x.stop ≤ e.offset ∨ e.stop ≤ x.offset)

theorem overlaps_of_mem_bytes {x : Extent} {byte : Nat} (he : byte ∈ e.bytes)
    (hx : byte ∈ x.bytes) : Overlaps e x := by
  rw [Extent.mem_bytes] at he hx
  unfold Overlaps
  omega

/-- An extent that overlaps one of those above it reaches past the start of the first, and is
caught there. -/
theorem joinAbove_overlap {above : Extent} {rest : List Extent} (hstop : e.stop < span32)
    (hapart : (above :: rest).Pairwise fun x y => x.stop < y.offset)
    (hshare : ∃ x ∈ above :: rest, Overlaps e x) :
    joinAbove e (above :: rest) = .error (.overlap e) := by
  have hover : ¬ e.stop ≤ above.offset := by
    intro hbelow
    obtain ⟨x, hx, hoverlaps⟩ := hshare
    rcases List.mem_cons.mp hx with rfl | hx
    · exact hoverlaps (Or.inr hbelow)
    · have hgap := (List.pairwise_cons.mp hapart).1 x hx
      refine hoverlaps (Or.inr ?_)
      unfold Extent.stop at *
      omega
  simp [joinAbove, stop32_eq_ok hstop, require, hover, bind, Except.bind]

/-- An extent that starts within its lower neighbour is caught there. -/
theorem atop_overlap {below : Extent} {above : List Extent} (hbelow : below.stop < span32)
    (hover : ¬ below.stop ≤ e.offset) : insert.atop e below above = .error (.overlap e) := by
  simp [insert.atop, stop32_eq_ok hbelow, require, hover, bind, Except.bind]

/-- An extent is caught by its lower neighbour, or else by its upper one. -/
theorem atop_overlap_above {below above : Extent} {rest : List Extent} (hstop : e.stop < span32)
    (hbelow : below.stop < span32)
    (hapart : (above :: rest).Pairwise fun x y => x.stop < y.offset)
    (hshare : ∃ x ∈ below :: above :: rest, Overlaps e x) :
    insert.atop e below (above :: rest) = .error (.overlap e) := by
  by_cases hclear : below.stop ≤ e.offset
  · have hrest : ∃ x ∈ above :: rest, Overlaps e x := by
      obtain ⟨x, hx, hoverlaps⟩ := hshare
      rcases List.mem_cons.mp hx with rfl | hx
      · exact absurd (Or.inl hclear) hoverlaps
      · exact ⟨x, hx, hoverlaps⟩
    simp [insert.atop, stop32_eq_ok hbelow, require, hclear,
      joinAbove_overlap hstop hapart hrest, bind, Except.bind]
  · exact atop_overlap hbelow hclear

/-- An extent that overlaps a free one cannot be put among them. -/
theorem insert_overlap (hstop : e.stop < span32) (hstops : ∀ x ∈ extents, x.stop < span32)
    (hapart : extents.Pairwise fun x y => x.stop < y.offset)
    (hshare : ∃ x ∈ extents, Overlaps e x) : insert e extents = .error (.overlap e) := by
  induction extents with
  | nil =>
      obtain ⟨x, hx, _⟩ := hshare
      cases hx
  | cons x rest ih =>
      have hx := hstops x List.mem_cons_self
      by_cases hle : e.offset ≤ x.offset
      · rw [insert.eq_def]
        simp only [hle, ↓reduceIte]
        exact joinAbove_overlap hstop hapart hshare
      · cases rest with
        | nil =>
            obtain ⟨y, hy, hoverlaps⟩ := hshare
            obtain rfl := List.mem_singleton.mp hy
            rw [insert, if_neg hle]
            exact atop_overlap hx fun hclear => hoverlaps (Or.inl hclear)
        | cons y more =>
            obtain ⟨hhead, htail⟩ := List.pairwise_cons.mp hapart
            by_cases hnext : e.offset ≤ y.offset
            · rw [insert, if_neg hle, if_pos hnext]
              exact atop_overlap_above hstop hx htail hshare
            · -- the first extent ends before the second starts, and so before `e` does
              have hgap := hhead y List.mem_cons_self
              have hrest : ∃ z ∈ y :: more, Overlaps e z := by
                obtain ⟨z, hz, hoverlaps⟩ := hshare
                rcases List.mem_cons.mp hz with rfl | hz
                · exact absurd (Or.inl (by omega)) hoverlaps
                · exact ⟨z, hz, hoverlaps⟩
              rw [insert, if_neg hle, if_neg hnext,
                ih (fun z hz => hstops z (List.mem_cons_of_mem _ hz)) htail hrest]
              rfl

/-- A release is caught if it would free a byte twice, and else frees just its bytes. -/
theorem Tidy.release_cases (h : a.Tidy size) (hsize : size < span32) (hpos : 0 < e.len)
    (hstop : e.stop ≤ size) :
    (a.release e = .error (.overlap e) ∧ ∃ byte ∈ e.bytes, byte ∈ a.bytes) ∨
      (¬ ∃ byte ∈ e.bytes, byte ∈ a.bytes) ∧
        ∃ left, a.release e = .ok left ∧ a.Releases size e left := by
  by_cases hshare : ∃ byte ∈ e.bytes, byte ∈ a.bytes
  · refine Or.inl ⟨?_, hshare⟩
    obtain ⟨byte, hbyte, hfree⟩ := hshare
    obtain ⟨x, hx, hin⟩ := mem_bytesOf.mp hfree
    have hinsert := insert_overlap (Nat.lt_of_le_of_lt hstop hsize)
      (fun y hy => Nat.lt_of_le_of_lt (h.inside y hy) hsize) h.apart
      ⟨x, hx, overlaps_of_mem_bytes hbyte hin⟩
    rw [release, if_neg (by omega), hinsert]
    rfl
  · refine Or.inr ⟨hshare, release_spec h hsize hpos hstop ?_⟩
    exact Multiset.disjoint_left.mpr fun {byte} hbyte hfree => hshare ⟨byte, hbyte, hfree⟩

end Arena

namespace Tenancy

variable {t : Tenancy} {size : Nat}

/-! ## Extents handed out -/

/-- Extents that were handed out can be taken back in any order. -/
theorem Tiles.releaseAll_spec (h : t.Tiles size) (hsize : size < span32)
    {returned : List Extent} (hreturned : returned.Subperm t.taken) :
    ∃ left, t.arena.releaseAll returned = .ok left ∧ left.Tidy size ∧
      left.bytes = bytesOf returned + t.arena.bytes := by
  obtain ⟨listed, hperm, hsublist⟩ := hreturned
  have hmem : ∀ e ∈ returned, e ∈ t.taken := fun e he =>
    hsublist.subset (hperm.mem_iff.mpr he)
  refine Arena.releaseAll_spec h.tidy hsize (fun e he => h.taken_positive e (hmem e he))
    (fun e he => h.stop_le (List.mem_append_right _ (hmem e he))) ?_
  -- what is returned and what is kept are the extents handed out
  obtain ⟨kept, hkept⟩ := hsublist.exists_perm_append
  have hnodup := h.nodup
  rw [extents, bytesOf_append, bytesOf_perm hkept, bytesOf_append, bytesOf_perm hperm,
    ← add_assoc, Multiset.nodup_add] at hnodup
  rw [add_comm]
  exact hnodup.1

/-- Giving back what was just reserved undoes the reservation. -/
theorem Tiles.release_reserved (h : t.Tiles size) (hsize : size < span32) {n : Nat} {e : Extent}
    {left : Arena} (hreserve : t.arena.reserve n = .ok (some (e, left))) :
    left.release e = .ok t.arena := by
  obtain ⟨next, hnext, htiles⟩ := h.serve_reserve hsize n
  cases (serve_reserve_some hreserve).symm.trans hnext
  obtain ⟨back, hrelease, hreleases⟩ := htiles.release_spec hsize List.mem_cons_self
  rcases Arena.reserve_spec h.tidy hsize n with ⟨hnone, _⟩ | ⟨taken, left', hsome, hreserves⟩
  · cases hnone.symm.trans hreserve
  · cases hsome.symm.trans hreserve
    rw [hrelease]
    refine congrArg Except.ok (hreleases.tidy.eq_of_bytes_eq h.tidy ?_)
    rw [hreleases.bytes_eq, add_comm, hreserves.bytes_eq]

/-- After any script on an arena of any size, extents that are handed out may be returned in any
order: the arenas that two orders leave are equal, with the same extents and the same count of
free bytes. Returning what was just reserved gives the arena before the reservation, and returning
everything gives the arena as it was made. -/
theorem serveAll_release_order (size : UInt32) (script : List ArenaRequest) :
    ∃ t, (start size.toNat).serveAll script = .ok t ∧
      (∀ first second : List Extent, first.Subperm t.taken → first.Perm second →
        ∃ left, t.arena.releaseAll first = .ok left ∧ t.arena.releaseAll second = .ok left) ∧
      (∀ n e left, t.arena.reserve n = .ok (some (e, left)) → left.release e = .ok t.arena) ∧
      ∀ all : List Extent, all.Perm t.taken →
        t.arena.releaseAll all = .ok (Arena.new size.toNat) := by
  have hsize : size.toNat < span32 := size.toNat_lt
  obtain ⟨t, hrun, htiles⟩ := (tiles_start size.toNat).serveAll hsize script
  refine ⟨t, hrun, fun first second hsub hperm => ?_,
    fun n e left hreserve => htiles.release_reserved hsize hreserve, fun all hperm => ?_⟩
  · obtain ⟨left, hfirst, htidy, hbytes⟩ := htiles.releaseAll_spec hsize hsub
    obtain ⟨left', hsecond, htidy', hbytes'⟩ := htiles.releaseAll_spec hsize
      ((List.Perm.subperm hperm.symm).trans hsub)
    have hsame : left' = left := by
      refine htidy'.eq_of_bytes_eq htidy ?_
      rw [hbytes, hbytes', bytesOf_perm hperm]
    exact ⟨left, hfirst, hsame ▸ hsecond⟩
  · obtain ⟨left, hall, htidy, hbytes⟩ := htiles.releaseAll_spec hsize hperm.subperm
    rw [hall]
    refine congrArg Except.ok (htidy.eq_of_bytes_eq (Arena.tidy_new _) ?_)
    rw [hbytes, Arena.bytes_new, bytesOf_perm hperm, ← htiles.bytes_eq, extents, bytesOf_append,
      add_comm]
    rfl

/-- Four extents are handed out, and two of them that do not touch are returned. -/
def checkeredScript : List ArenaRequest :=
  [.reserve 16, .reserve 16, .reserve 16, .reserve 16, .release 3, .release 1]

/-- The arena after that script. -/
def checkered : Tenancy := ⟨⟨[⟨0, 16⟩, ⟨32, 16⟩, ⟨64, 32⟩], 64⟩, [⟨48, 16⟩, ⟨16, 16⟩]⟩

theorem serveAll_checkeredScript : (start 96).serveAll checkeredScript = .ok checkered := rfl

/-- The two extents left are joined with neighbours on both sides, in one order or the other. -/
theorem serveAll_release_order_checkered :
    (∃ left, checkered.arena.releaseAll [⟨48, 16⟩, ⟨16, 16⟩] = .ok left ∧
      checkered.arena.releaseAll [⟨16, 16⟩, ⟨48, 16⟩] = .ok left) ∧
    (∃ e left, checkered.arena.reserve 24 = .ok (some (e, left)) ∧
      left.release e = .ok checkered.arena) ∧
    checkered.arena.releaseAll checkered.taken = .ok (Arena.new 96) := by
  obtain ⟨t, hrun, horder, hundo, hall⟩ := serveAll_release_order 96 checkeredScript
  cases serveAll_checkeredScript.symm.trans hrun
  exact ⟨horder _ _ (List.Perm.refl _).subperm (List.Perm.swap ..), ⟨_, _, rfl, hundo 24 _ _ rfl⟩,
    hall _ (List.Perm.refl _)⟩

/-- After any script on an arena of any size, the release of an extent of the arena that is not
empty faults for its overlap exactly if one of its bytes is free, which is to say that it is in no
extent handed out. There is no other fault, and if there is none the bytes that are free are those
that were and those of the extent. -/
theorem serveAll_overlap_caught (size : UInt32) (script : List ArenaRequest) :
    ∃ t, (start size.toNat).serveAll script = .ok t ∧
      (∀ byte, byte ∈ t.arena.bytes ↔
        byte < size.toNat ∧ ∀ e ∈ t.taken, ¬ (e.offset ≤ byte ∧ byte < e.stop)) ∧
      ∀ e : Extent, 0 < e.len → e.stop ≤ size.toNat →
        (t.arena.release e = .error (.overlap e) ↔
          ∃ byte, (e.offset ≤ byte ∧ byte < e.stop) ∧ byte ∈ t.arena.bytes) ∧
        (t.arena.release e = .error (.overlap e) ∨ ∃ left, t.arena.release e = .ok left ∧
          ∀ byte, byte ∈ left.bytes ↔
            byte ∈ t.arena.bytes ∨ e.offset ≤ byte ∧ byte < e.stop) := by
  have hsize : size.toNat < span32 := size.toNat_lt
  obtain ⟨t, hrun, htiles⟩ := (tiles_start size.toNat).serveAll hsize script
  refine ⟨t, hrun, fun _ => htiles.mem_bytes_iff, fun e hpos hstop => ?_⟩
  simp only [← Extent.mem_bytes]
  rcases htiles.tidy.release_cases hsize hpos hstop with
    ⟨hcaught, hshare⟩ | ⟨hapart, left, hrelease, hreleases⟩
  · exact ⟨iff_of_true hcaught hshare, Or.inl hcaught⟩
  · refine ⟨iff_of_false (fun hcaught => ?_) hapart, Or.inr ⟨left, hrelease, fun byte => ?_⟩⟩
    · cases hcaught.symm.trans hrelease
    · rw [hreleases.bytes_eq, Multiset.mem_add, or_comm]

/-- An extent that begins where none is free but reaches into a free one, one that was returned
before, and one that may be returned. -/
theorem serveAll_overlap_caught_checkered :
    checkered.arena.release ⟨16, 32⟩ = .error (.overlap ⟨16, 32⟩) ∧
    checkered.arena.release ⟨0, 16⟩ = .error (.overlap ⟨0, 16⟩) ∧
    ∃ left, checkered.arena.release ⟨16, 16⟩ = .ok left ∧ 16 ∈ left.bytes := by
  obtain ⟨t, hrun, hfree, hcaught⟩ := serveAll_overlap_caught 96 checkeredScript
  cases serveAll_checkeredScript.symm.trans hrun
  refine ⟨(hcaught ⟨16, 32⟩ (by decide) (by decide)).1.mpr ⟨32, by decide, by decide⟩,
    (hcaught ⟨0, 16⟩ (by decide) (by decide)).1.mpr ⟨0, by decide, by decide⟩, ?_⟩
  rcases (hcaught ⟨16, 16⟩ (by decide) (by decide)).2 with hfault | ⟨left, hrelease, hbytes⟩
  · cases hfault
  · exact ⟨left, hrelease, (hbytes 16).mpr (Or.inr (by decide))⟩

end Tenancy

end ObjectHeap
