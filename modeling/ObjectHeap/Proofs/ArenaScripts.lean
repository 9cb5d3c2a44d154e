import Mathlib.Algebra.Order.BigOperators.Group.List
import Mathlib.Algebra.Order.Group.Nat
import ObjectHeap.Proofs.Tiling

/-! # Scripts of reservations and releases

An arena by itself hands out extents and takes them back, in any order. Whatever the script, the
free extents and the extents handed out tile the arena: they share no byte, and every byte of
the arena is in one of them. Hence no request faults, and the count of free bytes stays between
zero and the size of the arena.
-/

namespace ObjectHeap

/-- A request to an arena: bytes to hand out, or the position of an extent to take back among
those handed out. -/
inductive ArenaRequest where
  | reserve (size : Nat)
  | release (index : Nat)

/-- An arena and the extents it has handed out and not taken back, the latest first. -/
structure Tenancy where
  arena : Arena
  taken : List Extent

/-- The bytes of a list of extents are those of any one of them and of the others. -/
theorem bytesOf_eraseIdx {extents : List Extent} {index : Nat} {e : Extent}
    (h : extents[index]? = some e) :
    bytesOf extents = e.bytes + bytesOf (extents.eraseIdx index) := by
  obtain ⟨hindex, rfl⟩ := List.getElem?_eq_some_iff.mp h
  rw [← bytesOf_cons]
  exact ((List.getElem_cons_eraseIdx_perm hindex).map Extent.bytes).sum_eq.symm

namespace Arena

variable {a left : Arena} {size : Nat} {e : Extent}

/-- A reservation takes its bytes off the count of free ones, which has them. -/
theorem Reserves.freeBytes_eq {n : Nat} (h : a.Reserves size n e left) (ha : a.Tidy size) :
    a.freeBytes = left.freeBytes + n := by
  rw [ha.freeBytes_eq_card, h.tidy.freeBytes_eq_card, ← h.bytes_eq, Multiset.card_add,
    Extent.card_bytes, h.len_eq]

theorem Releases.freeBytes_eq (h : a.Releases size e left) (ha : a.Tidy size) :
    left.freeBytes = a.freeBytes + e.len := by
  rw [ha.freeBytes_eq_card, h.tidy.freeBytes_eq_card, h.bytes_eq, Multiset.card_add,
    Extent.card_bytes, Nat.add_comm]

end Arena

namespace Tenancy

variable {t : Tenancy} {size : Nat}

/-- An arena that has handed out nothing. -/
def start (size : Nat) : Tenancy := ⟨Arena.new size, []⟩

/-- Makes a request. A position past the extents handed out asks for nothing. -/
def serve (t : Tenancy) : ArenaRequest → Except Fault Tenancy
  | .reserve size => do
    match ← t.arena.reserve size with
    | some (extent, arena) => return ⟨arena, extent :: t.taken⟩
    | none => return t
  | .release index =>
    match t.taken[index]? with
    | some extent => do return ⟨← t.arena.release extent, t.taken.eraseIdx index⟩
    | none => return t

def serveAll (t : Tenancy) (script : List ArenaRequest) : Except Fault Tenancy :=
  script.foldlM serve t

def extents (t : Tenancy) : List Extent := t.arena.extents ++ t.taken

/-- The free extents are tidy, and together with those handed out they make up the arena. -/
structure Tiles (t : Tenancy) (size : Nat) : Prop where
  tidy : t.arena.Tidy size
  taken_positive : ∀ e ∈ t.taken, 0 < e.len
  bytes_eq : bytesOf t.extents = Multiset.range size

theorem tiles_start (size : Nat) : (start size).Tiles size where
  tidy := Arena.tidy_new size
  taken_positive := by simp [start]
  bytes_eq := by
    rw [extents, start, List.append_nil]
    exact Arena.bytes_new size

namespace Tiles

theorem positive (h : t.Tiles size) : ∀ e ∈ t.extents, 0 < e.len := by
  intro e he
  rcases List.mem_append.mp he with he | he
  · exact h.tidy.positive e he
  · exact h.taken_positive e he

theorem nodup (h : t.Tiles size) : (bytesOf t.extents).Nodup := by
  rw [h.bytes_eq]
  exact Multiset.nodup_range size

theorem mem_extents_iff (h : t.Tiles size) (byte : Nat) :
    (∃ e ∈ t.extents, e.offset ≤ byte ∧ byte < e.stop) ↔ byte < size := by
  rw [← Multiset.mem_range, ← h.bytes_eq, mem_bytesOf]
  simp only [Extent.mem_bytes]

theorem stop_le (h : t.Tiles size) {e : Extent} (he : e ∈ t.extents) : e.stop ≤ size := by
  have hpos := h.positive e he
  have hlast := (h.mem_extents_iff (e.stop - 1)).mp ⟨e, he, by unfold Extent.stop; omega⟩
  omega

/-- The lengths of all extents add up to the size of the arena. -/
theorem freeBytes_add (h : t.Tiles size) :
    t.arena.freeBytes + (t.taken.map Extent.len).sum = size := by
  rw [h.tidy.freeBytes_eq, ← Arena.card_bytesOf, ← Arena.card_bytesOf, ← Multiset.card_add,
    ← bytesOf_append]
  exact (congrArg Multiset.card h.bytes_eq).trans (Multiset.card_range size)

/-- No byte of an extent that is handed out is free. -/
theorem disjoint (h : t.Tiles size) {e : Extent} (he : e ∈ t.taken) :
    Disjoint e.bytes t.arena.bytes := by
  have hnodup := h.nodup
  rw [extents, bytesOf_append] at hnodup
  refine Multiset.disjoint_left.mpr fun {byte} hbyte hfree => ?_
  have htaken := mem_bytesOf.mpr ⟨e, he, hbyte⟩
  exact Multiset.disjoint_left.mp (Multiset.disjoint_of_nodup_add hnodup) hfree htaken

/-- An extent that is handed out can be taken back. -/
theorem release_spec (h : t.Tiles size) (hsize : size < span32) {e : Extent} (he : e ∈ t.taken) :
    ∃ left, t.arena.release e = .ok left ∧ t.arena.Releases size e left :=
  Arena.release_spec h.tidy hsize (h.taken_positive e he)
    (h.stop_le (List.mem_append_right _ he)) (h.disjoint he)

/-! ## One request -/

theorem serve_reserve (h : t.Tiles size) (hsize : size < span32) (n : Nat) :
    ∃ t', t.serve (.reserve n) = .ok t' ∧ t'.Tiles size := by
  rcases Arena.reserve_spec h.tidy hsize n with ⟨hnone, -⟩ | ⟨extent, left, hsome, hreserves⟩
  · refine ⟨t, ?_, h⟩
    simp only [serve, hnone]
    rfl
  · refine ⟨⟨left, extent :: t.taken⟩, ?_, hreserves.tidy, ?_, ?_⟩
    · simp only [serve, hsome]
      rfl
    · intro e he
      rcases List.mem_cons.mp he with rfl | he
      · exact hreserves.len_eq ▸ hreserves.pos
      · exact h.taken_positive e he
    · rw [← h.bytes_eq, extents, extents, bytesOf_append, bytesOf_append, bytesOf_cons,
        ← add_assoc]
      exact congrArg (· + bytesOf t.taken) hreserves.bytes_eq

theorem serve_release (h : t.Tiles size) (hsize : size < span32) (index : Nat) :
    ∃ t', t.serve (.release index) = .ok t' ∧ t'.Tiles size := by
  cases hindex : t.taken[index]? with
  | none =>
      refine ⟨t, ?_, h⟩
      simp only [serve, hindex]
      rfl
  | some e =>
      obtain ⟨left, hrelease, hreleases⟩ := h.release_spec hsize (List.mem_of_getElem? hindex)
      refine ⟨⟨left, t.taken.eraseIdx index⟩, ?_, hreleases.tidy, ?_, ?_⟩
      · simp only [serve, hindex, hrelease]
        rfl
      · exact fun x hx => h.taken_positive x (List.mem_of_mem_eraseIdx hx)
      · rw [extents, bytesOf_append]
        calc left.bytes + bytesOf (t.taken.eraseIdx index)
          _ = t.arena.bytes + bytesOf t.taken := by
            rw [hreleases.bytes_eq, bytesOf_eraseIdx hindex]
            abel
          _ = bytesOf t.extents := (bytesOf_append _ _).symm
          _ = Multiset.range size := h.bytes_eq

/-- A request never faults, and the extents still tile the arena after it. -/
theorem serve (h : t.Tiles size) (hsize : size < span32) (request : ArenaRequest) :
    ∃ t', t.serve request = .ok t' ∧ t'.Tiles size := by
  cases request with
  | reserve n => exact h.serve_reserve hsize n
  | release index => exact h.serve_release hsize index

/-! ## A script -/

theorem serveAll (h : t.Tiles size) (hsize : size < span32) (script : List ArenaRequest) :
    ∃ t', t.serveAll script = .ok t' ∧ t'.Tiles size := by
  induction script generalizing t with
  | nil => exact ⟨t, rfl, h⟩
  | cons request rest ih =>
      obtain ⟨next, hnext, hnextTiles⟩ := h.serve hsize request
      obtain ⟨last, hlast, hlastTiles⟩ := ih hnextTiles
      refine ⟨last, ?_, hlastTiles⟩
      rw [Tenancy.serveAll, List.foldlM_cons, hnext]
      exact hlast

end Tiles

/-- After any script on an arena of any size, the free extents are in increasing order, with a
gap after each; no extent is empty; free extents and extents handed out are pairwise disjoint and
cover the arena; and the count of free bytes is right. The script itself does not fault. Nor does
a further request: a reservation is met unless every free extent is too short, and then takes as
many bytes as asked for off the count, which has them; and each extent handed out can be taken
back, which brings the count to no more than the size of the arena. -/
theorem serveAll_tiles (size : UInt32) (script : List ArenaRequest) :
    ∃ t, (start size.toNat).serveAll script = .ok t ∧
      t.arena.extents.Pairwise (fun x y => x.stop < y.offset) ∧
      (∀ e ∈ t.extents, 0 < e.len) ∧
      t.extents.Pairwise (fun x y => x.stop ≤ y.offset ∨ y.stop ≤ x.offset) ∧
      (∀ byte, (∃ e ∈ t.extents, e.offset ≤ byte ∧ byte < e.stop) ↔ byte < size.toNat) ∧
      t.arena.freeBytes = (t.arena.extents.map Extent.len).sum ∧
      (∀ n, (t.arena.reserve n = .ok none ∧ (n = 0 ∨ ∀ e ∈ t.arena.extents, e.len < n)) ∨
        ∃ e left, t.arena.reserve n = .ok (some (e, left)) ∧ e.len = n ∧ 0 < n ∧
          t.arena.freeBytes = left.freeBytes + n) ∧
      ∀ e ∈ t.taken, ∃ left, t.arena.release e = .ok left ∧
        left.freeBytes = t.arena.freeBytes + e.len ∧ left.freeBytes ≤ size.toNat := by
  have hsize : size.toNat < span32 := size.toNat_lt
  obtain ⟨t, hrun, htiles⟩ := (tiles_start size.toNat).serveAll hsize script
  refine ⟨t, hrun, htiles.tidy.apart, htiles.positive,
    pairwise_of_nodup_bytesOf htiles.nodup htiles.positive, htiles.mem_extents_iff,
    htiles.tidy.freeBytes_eq, ?_, ?_⟩
  · intro n
    refine (Arena.reserve_spec htiles.tidy hsize n).imp_right ?_
    rintro ⟨e, left, hreserve, hreserves⟩
    exact ⟨e, left, hreserve, hreserves.len_eq, hreserves.pos, hreserves.freeBytes_eq htiles.tidy⟩
  · intro e he
    obtain ⟨left, hrelease, hreleases⟩ := htiles.release_spec hsize he
    have hfree := hreleases.freeBytes_eq htiles.tidy
    have hlen : e.len ≤ (t.taken.map Extent.len).sum :=
      List.le_sum_of_mem (List.mem_map.mpr ⟨e, he, rfl⟩)
    have htotal := htiles.freeBytes_add
    exact ⟨left, hrelease, hfree, by omega⟩

end Tenancy

end ObjectHeap
