import Mathlib.Order.Bounds.Basic
import ObjectHeap.Proofs.ArenaScripts

/-! # First fit

A reservation looks only at where free extents start, and takes the first that is long enough.
Because neighbours in the free list never touch, a run of free bytes lies within one extent, so
that this is the lowest place where the bytes fit, and a request is refused only if they fit
nowhere. This holds however the arena has been cut up before.
-/

namespace ObjectHeap

/-! ## Runs of free bytes -/

namespace Arena

variable {a : Arena} {size : Nat}

/-- A run of free bytes does not reach past the extent that it starts in. -/
theorem Tidy.run_iff (h : a.Tidy size) {start n : Nat} (hn : 0 < n) :
    (∀ byte, start ≤ byte → byte < start + n → byte ∈ a.bytes) ↔
      ∃ e ∈ a.extents, e.offset ≤ start ∧ start + n ≤ e.stop := by
  constructor
  · intro hrun
    obtain ⟨e, he, hstart⟩ := mem_bytesOf.mp (hrun start (Nat.le_refl _) (by omega))
    rw [Extent.mem_bytes] at hstart
    refine ⟨e, he, hstart.1, Nat.le_of_not_lt fun hpast => ?_⟩
    -- the byte past the extent would be free, and belong to a neighbour that touches it
    obtain ⟨e', he', hstop⟩ := mem_bytesOf.mp (hrun e.stop (by omega) hpast)
    rw [Extent.mem_bytes] at hstop
    have hne : e ≠ e' := by
      rintro rfl
      omega
    have : Std.Symm fun x y : Extent => x.stop < y.offset ∨ y.stop < x.offset :=
      ⟨fun _ _ => Or.symm⟩
    have hapart : a.extents.Pairwise fun x y => x.stop < y.offset ∨ y.stop < x.offset :=
      h.apart.imp Or.inl
    have := hapart.forall he he' hne
    omega
  · rintro ⟨e, he, hoffset, hstop⟩ byte hle hlt
    exact mem_bytesOf.mpr ⟨e, he, Extent.mem_bytes.mpr ⟨by omega, by omega⟩⟩

/-- Whether some free extent has a number of bytes. -/
def Offers (a : Arena) (n : Nat) : Prop := ∃ e ∈ a.extents, n ≤ e.len

/-- There is a run of free bytes exactly if a free extent is as long. -/
theorem Tidy.exists_run_iff (h : a.Tidy size) {n : Nat} (hn : 0 < n) :
    (∃ start, ∀ byte, start ≤ byte → byte < start + n → byte ∈ a.bytes) ↔ a.Offers n := by
  simp only [h.run_iff hn, Offers]
  constructor
  · rintro ⟨start, e, he, hoffset, hstop⟩
    unfold Extent.stop at hstop
    exact ⟨e, he, by omega⟩
  · rintro ⟨e, he, hlen⟩
    exact ⟨e.offset, e, he, Nat.le_refl _, Nat.add_le_add_left hlen _⟩

theorem largest_eq (a : Arena) : a.largest = (a.extents.map Extent.len).max?.getD 0 := by
  rw [largest, ← List.foldl_map, List.foldl_max, Nat.max_eq_right (Nat.zero_le _)]

/-- The length of the longest free extent is that of the longest run of free bytes. -/
theorem Tidy.isGreatest_largest (h : a.Tidy size) :
    IsGreatest { n | ∃ start, ∀ byte, start ≤ byte → byte < start + n → byte ∈ a.bytes }
      a.largest := by
  have hrun {n : Nat} (hn : 0 < n) :
      (∃ start, ∀ byte, start ≤ byte → byte < start + n → byte ∈ a.bytes) ↔
        ∃ len ∈ a.extents.map Extent.len, n ≤ len := by
    simp [h.exists_run_iff hn, Offers]
  rw [largest_eq]
  cases hmax : (a.extents.map Extent.len).max? with
  | none =>
      rw [List.max?_eq_none_iff] at hmax
      refine ⟨⟨0, fun byte _ hlt => absurd hlt (Nat.not_lt_zero _)⟩, fun n hn => ?_⟩
      by_contra hpos
      obtain ⟨len, hlen, _⟩ := (hrun (Nat.lt_of_not_le hpos)).mp hn
      rw [hmax] at hlen
      cases hlen
  | some most =>
      obtain ⟨hmem, hmost⟩ := List.max?_eq_some_iff.mp hmax
      obtain ⟨e, he, rfl⟩ := List.mem_map.mp hmem
      refine ⟨(hrun (h.positive e he)).mpr ⟨_, hmem, Nat.le_refl _⟩, fun n hn => ?_⟩
      rcases Nat.eq_zero_or_pos n with rfl | hpos
      · exact Nat.zero_le _
      · obtain ⟨len, hlen, hle⟩ := (hrun hpos).mp hn
        exact Nat.le_trans hle (hmost len hlen)

/-- A run that is as long as a request does not start below the first extent that is. -/
theorem Tidy.isLeast_offset (h : a.Tidy size) {before after : List Extent} {e : Extent} {n : Nat}
    (hsplit : a.extents = before ++ e :: after) (hn : 0 < n) (hshort : ∀ x ∈ before, x.len < n)
    (hfit : n ≤ e.len) :
    IsLeast { start | ∀ byte, start ≤ byte → byte < start + n → byte ∈ a.bytes } e.offset := by
  have hapart := h.apart
  rw [hsplit] at hapart
  obtain ⟨hhead, _⟩ := List.pairwise_cons.mp (List.pairwise_append.mp hapart).2.1
  refine ⟨(h.run_iff hn).mpr ⟨e, by rw [hsplit]; simp, Nat.le_refl _, ?_⟩, fun start hrun => ?_⟩
  · exact Nat.add_le_add_left hfit _
  obtain ⟨x, hx, hoffset, hstop⟩ := (h.run_iff hn).mp hrun
  have hlen : n ≤ x.len := by
    unfold Extent.stop at hstop
    omega
  -- the extent of the run is too long to stand before `e`
  rw [hsplit, List.mem_append, List.mem_cons] at hx
  rcases hx with hx | rfl | hx
  · have := hshort x hx
    omega
  · exact hoffset
  · have hgap := hhead x hx
    unfold Extent.stop at hgap
    omega

/-- A reservation is met at the lowest offset at which the bytes are free, or else there is none. -/
theorem Tidy.reserve_lowest (h : a.Tidy size) (hsize : size < span32) (n : Nat) :
    (a.reserve n = .ok none ∧ (n = 0 ∨
        ¬ ∃ start, ∀ byte, start ≤ byte → byte < start + n → byte ∈ a.bytes)) ∨
      ∃ e left, a.reserve n = .ok (some (e, left)) ∧ a.Reserves size n e left ∧
        IsLeast { start | ∀ byte, start ≤ byte → byte < start + n → byte ∈ a.bytes } e.offset := by
  rcases reserve_cases h hsize n with
    ⟨hnone, hshort⟩ | ⟨hpos, before, e, after, hsplit, hshort, hfit, hsome⟩
  · refine Or.inl ⟨hnone, ?_⟩
    rcases Nat.eq_zero_or_pos n with hzero | hpos
    · exact Or.inl hzero
    · refine Or.inr fun hrun => ?_
      obtain ⟨e, he, hlen⟩ := (h.exists_run_iff hpos).mp hrun
      have := (hshort.resolve_left (by omega)) e he
      omega
  · rcases reserve_spec h hsize n with ⟨hnone, _⟩ | ⟨taken, left, hsome', hreserves⟩
    · cases hnone.symm.trans hsome
    · refine Or.inr ⟨taken, left, hsome', hreserves, ?_⟩
      have hleast := h.isLeast_offset hsplit hpos hshort hfit
      cases hsome.symm.trans hsome'
      exact hleast

theorem Tidy.largest_lt_iff (h : a.Tidy size) {n : Nat} :
    a.largest < n ↔ ¬ ∃ start, ∀ byte, start ≤ byte → byte < start + n → byte ∈ a.bytes := by
  obtain ⟨⟨start, hrun⟩, hgreatest⟩ := h.isGreatest_largest
  refine ⟨fun hlt hrun => Nat.not_le.mpr hlt (hgreatest hrun), fun hnone => ?_⟩
  by_contra hle
  exact hnone ⟨start, fun byte hge hlt => hrun byte hge (by omega)⟩

/-- The bytes that are left are those that were free and are not handed out. -/
theorem Reserves.mem_bytes_iff {n : Nat} {e : Extent} {left : Arena}
    (h : a.Reserves size n e left) (hnodup : a.bytes.Nodup) {byte : Nat} :
    byte ∈ left.bytes ↔ byte ∈ a.bytes ∧ ¬ (e.offset ≤ byte ∧ byte < e.stop) := by
  rw [← h.bytes_eq, Multiset.nodup_add] at hnodup
  rw [← h.bytes_eq, Multiset.mem_add, ← Extent.mem_bytes]
  have hdisjoint : byte ∈ left.bytes → byte ∉ e.bytes :=
    fun hleft => Multiset.disjoint_left.mp hnodup.2.2 hleft
  tauto

end Arena

namespace Tenancy

variable {t : Tenancy} {size : Nat}

/-- The free bytes are those of the arena that are in no extent handed out. -/
theorem Tiles.mem_bytes_iff (h : t.Tiles size) {byte : Nat} :
    byte ∈ t.arena.bytes ↔
      byte < size ∧ ∀ e ∈ t.taken, ¬ (e.offset ≤ byte ∧ byte < e.stop) := by
  have hcover := h.mem_extents_iff byte
  simp only [extents, List.mem_append] at hcover
  constructor
  · intro hfree
    obtain ⟨e, he, hbyte⟩ := mem_bytesOf.mp hfree
    refine ⟨hcover.mp ⟨e, Or.inl he, Extent.mem_bytes.mp hbyte⟩, fun x hx htaken => ?_⟩
    exact Multiset.disjoint_left.mp (h.disjoint hx) (Extent.mem_bytes.mpr htaken) hfree
  · rintro ⟨hlt, houtside⟩
    obtain ⟨e, he | he, hbyte⟩ := hcover.mpr hlt
    · exact mem_bytesOf.mpr ⟨e, he, Extent.mem_bytes.mpr hbyte⟩
    · exact absurd hbyte (houtside e he)

theorem Tiles.nodup_free (h : t.Tiles size) : t.arena.bytes.Nodup := by
  have hnodup := h.nodup
  rw [extents, bytesOf_append, Multiset.nodup_add] at hnodup
  exact hnodup.1

theorem serve_reserve_none {n : Nat} (h : t.arena.reserve n = .ok none) :
    t.serve (.reserve n) = .ok t := by
  rw [serve, h]
  rfl

theorem serve_reserve_some {n : Nat} {e : Extent} {left : Arena}
    (h : t.arena.reserve n = .ok (some (e, left))) :
    t.serve (.reserve n) = .ok ⟨left, e :: t.taken⟩ := by
  rw [serve, h]
  rfl

/-- After any script on an arena of any size, a request for `n` bytes is met at the lowest offset
from which `n` bytes are free, and takes just these from the free bytes. It is refused, and then
changes nothing, if no bytes are asked for or nowhere are so many free in a row, which is to say
that the longest free extent is shorter. The free bytes are those that are in no extent handed
out. -/
theorem serveAll_first_fit (size : UInt32) (script : List ArenaRequest) (n : Nat) :
    ∃ t, (start size.toNat).serveAll script = .ok t ∧
      (∀ byte, byte ∈ t.arena.bytes ↔
        byte < size.toNat ∧ ∀ e ∈ t.taken, ¬ (e.offset ≤ byte ∧ byte < e.stop)) ∧
      ((∃ e left, t.arena.reserve n = .ok (some (e, left)) ∧
          t.serve (.reserve n) = .ok ⟨left, e :: t.taken⟩ ∧ e.len = n ∧
          IsLeast { start | ∀ byte, start ≤ byte → byte < start + n → byte ∈ t.arena.bytes }
            e.offset ∧
          ∀ byte, byte ∈ left.bytes ↔
            byte ∈ t.arena.bytes ∧ ¬ (e.offset ≤ byte ∧ byte < e.offset + n)) ∨
        t.arena.reserve n = .ok none ∧ t.serve (.reserve n) = .ok t) ∧
      (t.arena.reserve n = .ok none ↔ n = 0 ∨
        ¬ ∃ start, ∀ byte, start ≤ byte → byte < start + n → byte ∈ t.arena.bytes) ∧
      (0 < n → (t.arena.largest < n ↔
        ¬ ∃ start, ∀ byte, start ≤ byte → byte < start + n → byte ∈ t.arena.bytes)) := by
  have hsize : size.toNat < span32 := size.toNat_lt
  obtain ⟨t, hrun, htiles⟩ := (tiles_start size.toNat).serveAll hsize script
  refine ⟨t, hrun, fun _ => htiles.mem_bytes_iff, ?_⟩
  rcases htiles.tidy.reserve_lowest hsize n with
    ⟨hnone, hfull⟩ | ⟨e, left, hsome, hreserves, hleast⟩
  · exact ⟨Or.inr ⟨hnone, serve_reserve_none hnone⟩, iff_of_true hnone hfull,
      fun _ => htiles.tidy.largest_lt_iff⟩
  · refine ⟨Or.inl ⟨e, left, hsome, serve_reserve_some hsome, hreserves.len_eq, hleast,
      fun byte => ?_⟩, ?_, fun _ => htiles.tidy.largest_lt_iff⟩
    · rw [hreserves.mem_bytes_iff htiles.nodup_free, Extent.stop, hreserves.len_eq]
    · refine iff_of_false (fun hnone => by cases hnone.symm.trans hsome) ?_
      rintro (hzero | hnone)
      · exact Nat.ne_of_gt hreserves.pos hzero
      · exact hnone ⟨e.offset, hleast.1⟩

end Tenancy

end ObjectHeap
