import Mathlib.Algebra.BigOperators.Group.Multiset.Basic
import Mathlib.Algebra.Order.Group.Multiset
import Mathlib.Data.Multiset.Range
import Mathlib.Tactic.Abel
import ObjectHeap.Arena

/-! # Free space as a set of bytes

An extent stands for its bytes, and a list of extents for the bytes of all of them,
each counted as often as it occurs. Reserving and releasing move bytes between the
free list and the caller: nothing is lost and nothing is handed out twice. The free
list stays *tidy*: in increasing order, without empty extents, and with a gap between
any two neighbours.
-/

namespace ObjectHeap

namespace Extent

def bytes (e : Extent) : Multiset Nat := (List.range' e.offset e.len : List Nat)

theorem mem_bytes {e : Extent} {p : Nat} : p ∈ e.bytes ↔ e.offset ≤ p ∧ p < e.stop := by
  simp only [bytes, Multiset.mem_coe, List.mem_range'_1, stop]

@[simp] theorem card_bytes (e : Extent) : e.bytes.card = e.len := by
  simp [bytes]

/-- Two extents that touch have the bytes of the extent they make up. -/
theorem bytes_add_bytes (offset m n : Nat) :
    (⟨offset, m⟩ : Extent).bytes + (⟨offset + m, n⟩ : Extent).bytes =
      (⟨offset, m + n⟩ : Extent).bytes := by
  simp [bytes]

/-- What is left of an extent once `size` bytes are taken off its front. -/
def remainder (e : Extent) (size : Nat) : List Extent :=
  if e.len = size then [] else [⟨e.offset + size, e.len - size⟩]

/-- Whether both ends of an extent are multiples of eight. -/
def Aligned (e : Extent) : Prop := 8 ∣ e.offset ∧ 8 ∣ e.len

end Extent

def bytesOf (extents : List Extent) : Multiset Nat := (extents.map Extent.bytes).sum

@[simp] theorem bytesOf_nil : bytesOf [] = 0 := rfl

@[simp] theorem bytesOf_cons (e : Extent) (rest : List Extent) :
    bytesOf (e :: rest) = e.bytes + bytesOf rest := by
  simp [bytesOf]

@[simp] theorem bytesOf_append (first second : List Extent) :
    bytesOf (first ++ second) = bytesOf first + bytesOf second := by
  simp [bytesOf]

theorem mem_bytesOf {extents : List Extent} {p : Nat} :
    p ∈ bytesOf extents ↔ ∃ e ∈ extents, p ∈ e.bytes := by
  induction extents with
  | nil => simp
  | cons e rest ih => simp [ih]

/-- Extents that share no byte stand one after the other, in some order. -/
theorem pairwise_of_nodup_bytesOf {extents : List Extent} (hnodup : (bytesOf extents).Nodup)
    (hpos : ∀ e ∈ extents, 0 < e.len) :
    extents.Pairwise fun a b => a.stop ≤ b.offset ∨ b.stop ≤ a.offset := by
  induction extents with
  | nil => exact List.Pairwise.nil
  | cons a rest ih =>
      rw [bytesOf_cons, Multiset.nodup_add] at hnodup
      obtain ⟨_, hrest, hdisjoint⟩ := hnodup
      refine List.Pairwise.cons (fun b hb => ?_)
        (ih hrest fun e he => hpos e (List.mem_cons_of_mem _ he))
      -- of two extents that overlap, the later offset is a byte of both
      by_contra hoverlap
      have ha := hpos a List.mem_cons_self
      have hb' := hpos b (List.mem_cons_of_mem _ hb)
      simp only [Extent.stop] at hoverlap
      have hleft : max a.offset b.offset ∈ a.bytes := by
        rw [Extent.mem_bytes, Extent.stop]
        omega
      have hright : max a.offset b.offset ∈ b.bytes := by
        rw [Extent.mem_bytes, Extent.stop]
        omega
      exact Multiset.disjoint_left.mp hdisjoint hleft (mem_bytesOf.mpr ⟨b, hb, hright⟩)

theorem bytesOf_remainder {e : Extent} {size : Nat} (hsize : size ≤ e.len) :
    (⟨e.offset, size⟩ : Extent).bytes + bytesOf (e.remainder size) = e.bytes := by
  unfold Extent.remainder
  split
  next heq => subst heq; simp
  next =>
    rw [bytesOf_cons, bytesOf_nil, add_zero, Extent.bytes_add_bytes]
    congr 2
    omega

namespace Arena

def bytes (a : Arena) : Multiset Nat := bytesOf a.extents

/-- A free list in order: increasing, without empty extents, with a gap after each extent,
inside of the arena, and with a correct count of its bytes. -/
structure Tidy (a : Arena) (size : Nat) : Prop where
  apart : a.extents.Pairwise fun x y => x.stop < y.offset
  positive : ∀ e ∈ a.extents, 0 < e.len
  inside : ∀ e ∈ a.extents, e.stop ≤ size
  freeBytes_eq : a.freeBytes = (a.extents.map Extent.len).sum

theorem tidy_new (size : Nat) : (Arena.new size).Tidy size := by
  unfold Arena.new
  by_cases h : size = 0
  · subst h
    constructor <;> simp
  · constructor <;> simp [h, Extent.stop]
    omega

theorem bytes_new (size : Nat) : (Arena.new size).bytes = Multiset.range size := by
  unfold Arena.new bytes
  by_cases h : size = 0
  · subst h
    rfl
  · simp [h, Extent.bytes, Multiset.range, List.range_eq_range']

theorem card_bytesOf (extents : List Extent) :
    (bytesOf extents).card = (extents.map Extent.len).sum := by
  induction extents with
  | nil => rfl
  | cons e rest ih => simp [ih]

theorem Tidy.freeBytes_eq_card {a : Arena} {size : Nat} (h : a.Tidy size) :
    a.freeBytes = a.bytes.card := by
  rw [h.freeBytes_eq, bytes, card_bytesOf]

/-! ## Reserving -/

theorem trim_eq_ok {e : Extent} {size : Nat} (hstop : e.stop < span32) (hsize : size ≤ e.len) :
    trim e size = .ok (e.remainder size) := by
  unfold trim Extent.remainder
  split
  next => rfl
  next hne =>
    have hwithin : within span32 (e.offset + size) = .ok (e.offset + size) := by
      rw [within_eq_ok_iff]
      unfold Extent.stop at hstop
      exact ⟨by omega, rfl⟩
    rw [hwithin]
    rfl

/-- First fit, as a split of the list at the first extent that is long enough. -/
theorem takeFirst_cases {size : Nat} {extents : List Extent}
    (hstop : ∀ e ∈ extents, e.stop < span32) :
    (takeFirst size extents = .ok none ∧ ∀ e ∈ extents, e.len < size) ∨
      ∃ before e after, extents = before ++ e :: after ∧ (∀ x ∈ before, x.len < size) ∧
        size ≤ e.len ∧ takeFirst size extents =
          .ok (some (⟨e.offset, size⟩, before ++ e.remainder size ++ after)) := by
  induction extents with
  | nil => exact Or.inl ⟨rfl, by simp⟩
  | cons head rest ih =>
      by_cases hfit : size ≤ head.len
      · refine Or.inr ⟨[], head, rest, rfl, by simp, hfit, ?_⟩
        rw [takeFirst, if_pos hfit, trim_eq_ok (hstop head List.mem_cons_self) hfit]
        rfl
      · have hrest := ih fun e he => hstop e (List.mem_cons_of_mem _ he)
        rcases hrest with ⟨heq, hshort⟩ | ⟨before, e, after, hsplit, hshort, hsize, heq⟩
        · refine Or.inl ⟨?_, ?_⟩
          · rw [takeFirst, if_neg hfit, heq]
            rfl
          · intro e he
            rcases List.mem_cons.mp he with rfl | he
            · omega
            · exact hshort e he
        · refine Or.inr ⟨head :: before, e, after, by rw [hsplit]; rfl, ?_, hsize, ?_⟩
          · intro x hx
            rcases List.mem_cons.mp hx with rfl | hx
            · omega
            · exact hshort x hx
          · rw [takeFirst, if_neg hfit, heq]
            rfl

/-- Cutting the front off an extent keeps a free list tidy. -/
theorem Tidy.take {before after : List Extent} {e : Extent} {free size n : Nat}
    (h : Tidy ⟨before ++ e :: after, free⟩ size) (hn : 0 < n) (hfit : n ≤ e.len) :
    Tidy ⟨before ++ e.remainder n ++ after, free - n⟩ size := by
  -- each piece of the remainder lies in the extent it was cut from
  have hpiece : ∀ x ∈ e.remainder n, e.offset ≤ x.offset ∧ x.stop = e.stop ∧ 0 < x.len := by
    intro x hx
    unfold Extent.remainder at hx
    split at hx
    next => simp at hx
    next hne =>
      rw [List.mem_singleton] at hx
      subst hx
      simp only [Extent.stop]
      omega
  obtain ⟨hbefore, hafter, hcross⟩ := List.pairwise_append.mp h.apart
  obtain ⟨hhead, htail⟩ := List.pairwise_cons.mp hafter
  have hmem : ∀ x ∈ before ++ e.remainder n ++ after,
      x ∈ before ++ e :: after ∨ x ∈ e.remainder n := by
    intro x hx
    simp only [List.mem_append, List.mem_cons] at hx ⊢
    tauto
  have hone : (e.remainder n).Pairwise fun x y => x.stop < y.offset := by
    unfold Extent.remainder
    split <;> simp
  constructor
  · rw [List.append_assoc, List.pairwise_append, List.pairwise_append]
    refine ⟨hbefore, ⟨hone, htail, ?_⟩, ?_⟩
    · intro x hx y hy
      rw [(hpiece x hx).2.1]
      exact hhead y hy
    · intro x hx y hy
      rcases List.mem_append.mp hy with hy | hy
      · exact lt_of_lt_of_le (hcross x hx e List.mem_cons_self) (hpiece y hy).1
      · exact hcross x hx y (List.mem_cons_of_mem _ hy)
  · intro x hx
    rcases hmem x hx with hx | hx
    · exact h.positive x hx
    · exact (hpiece x hx).2.2
  · intro x hx
    rcases hmem x hx with hx | hx
    · exact h.inside x hx
    · rw [(hpiece x hx).2.1]
      exact h.inside e (by simp)
  · have hsum := h.freeBytes_eq
    simp only [List.map_append, List.map_cons, List.sum_append, List.sum_cons] at hsum ⊢
    unfold Extent.remainder
    split
    next heq => simp; omega
    next hne => simp; omega

/-- A request is refused if every free extent is too short, and else cuts the front off the
first that is not. -/
theorem reserve_cases {a : Arena} {size : Nat} (h : a.Tidy size) (hsize : size < span32)
    (n : Nat) :
    (a.reserve n = .ok none ∧ (n = 0 ∨ ∀ e ∈ a.extents, e.len < n)) ∨
      0 < n ∧ ∃ before e after, a.extents = before ++ e :: after ∧
        (∀ x ∈ before, x.len < n) ∧ n ≤ e.len ∧ a.reserve n =
          .ok (some (⟨e.offset, n⟩, ⟨before ++ e.remainder n ++ after, a.freeBytes - n⟩)) := by
  have hstop : ∀ e ∈ a.extents, e.stop < span32 := fun e he =>
    lt_of_le_of_lt (h.inside e he) hsize
  by_cases hout : n = 0 ∨ span32 ≤ n
  · refine Or.inl ⟨by rw [reserve, if_pos hout]; rfl, hout.imp_right ?_⟩
    intro hwide e he
    have := hstop e he
    unfold Extent.stop at this
    omega
  · rcases @takeFirst_cases n _ hstop with
      ⟨heq, hshort⟩ | ⟨before, e, after, hsplit, hshort, hfit, heq⟩
    · refine Or.inl ⟨?_, Or.inr hshort⟩
      rw [reserve, if_neg hout, heq]
      rfl
    · refine Or.inr ⟨by omega, before, e, after, hsplit, hshort, hfit, ?_⟩
      rw [reserve, if_neg hout, heq]
      rfl

/-- What a reservation does: it hands out `n` bytes that were free. -/
structure Reserves (a : Arena) (size n : Nat) (taken : Extent) (left : Arena) : Prop where
  tidy : left.Tidy size
  pos : 0 < n
  len_eq : taken.len = n
  bytes_eq : left.bytes + taken.bytes = a.bytes
  aligned : 8 ∣ n → (∀ e ∈ a.extents, e.Aligned) →
    taken.Aligned ∧ ∀ e ∈ left.extents, e.Aligned

/-- A reservation never faults. It is met unless every free extent is too short. -/
theorem reserve_spec {a : Arena} {size : Nat} (h : a.Tidy size) (hsize : size < span32)
    (n : Nat) :
    (a.reserve n = .ok none ∧ (n = 0 ∨ ∀ e ∈ a.extents, e.len < n)) ∨
      ∃ taken left, a.reserve n = .ok (some (taken, left)) ∧ a.Reserves size n taken left := by
  rcases reserve_cases h hsize n with
    hnone | ⟨hpos, before, e, after, hsplit, _, hfit, heq⟩
  · exact Or.inl hnone
  · refine Or.inr ⟨_, _, heq, ?_⟩
    obtain ⟨extents, free⟩ := a
    dsimp only at hsplit
    subst hsplit
    refine ⟨h.take hpos hfit, hpos, rfl, ?_, ?_⟩
    · simp only [bytes, bytesOf_append, bytesOf_cons]
      rw [← bytesOf_remainder hfit]
      abel
    · intro hn haligned
      have he := haligned e (by simp)
      refine ⟨⟨he.1, hn⟩, ?_⟩
      intro x hx
      simp only [List.mem_append] at hx
      rcases hx with (hx | hx) | hx
      · exact haligned x (by simp [hx])
      · unfold Extent.remainder at hx
        split at hx
        next => simp at hx
        next =>
          rw [List.mem_singleton] at hx
          subst hx
          exact ⟨(Nat.dvd_add_iff_right he.1).mp hn, Nat.dvd_sub he.2 hn⟩
      · exact haligned x (by simp [hx])

/-! ## Releasing -/

/-- The ends of an extent that is made up of `e` and extents of a list. -/
def EndsAmong (e : Extent) (extents : List Extent) (z : Extent) : Prop :=
  (z.offset = e.offset ∨ ∃ x ∈ extents, z.offset = x.offset) ∧
    (z.stop = e.stop ∨ ∃ x ∈ extents, z.stop = x.stop)

/-- What putting an extent back makes of a list of free extents. -/
structure Inserts (e : Extent) (extents joined : List Extent) : Prop where
  apart : joined.Pairwise fun x y => x.stop < y.offset
  positive : ∀ z ∈ joined, 0 < z.len
  ends : ∀ z ∈ joined, EndsAmong e extents z
  bytes_eq : bytesOf joined = e.bytes + bytesOf extents

theorem EndsAmong.cons {e z head : Extent} {extents : List Extent} (h : EndsAmong e extents z) :
    EndsAmong e (head :: extents) z :=
  ⟨h.1.imp_right fun ⟨x, hx, heq⟩ => ⟨x, List.mem_cons_of_mem _ hx, heq⟩,
    h.2.imp_right fun ⟨x, hx, heq⟩ => ⟨x, List.mem_cons_of_mem _ hx, heq⟩⟩

theorem endsAmong_of_mem {e z : Extent} {extents : List Extent} (h : z ∈ extents) :
    EndsAmong e extents z :=
  ⟨Or.inr ⟨z, h, rfl⟩, Or.inr ⟨z, h, rfl⟩⟩

theorem stop32_eq_ok {e : Extent} (h : e.stop < span32) : e.stop32 = .ok e.stop := by
  rw [Extent.stop32, within_eq_ok_iff]
  exact ⟨h, rfl⟩

/-- An extent that lies below all others is put in front of them. -/
theorem joinAbove_spec {e : Extent} {extents : List Extent} (hpos : 0 < e.len)
    (hstop : e.stop < span32) (hstops : ∀ x ∈ extents, x.stop < span32)
    (hbelow : ∀ x ∈ extents, e.stop ≤ x.offset)
    (hapart : extents.Pairwise fun x y => x.stop < y.offset)
    (hpositive : ∀ x ∈ extents, 0 < x.len) :
    ∃ first rest, joinAbove e extents = .ok (first :: rest) ∧ first.offset = e.offset ∧
      Inserts e extents (first :: rest) := by
  cases extents with
  | nil =>
      refine ⟨e, [], rfl, rfl, by simp, by simpa using hpos, ?_, by simp⟩
      intro z hz
      rw [List.mem_singleton] at hz
      subst hz
      exact ⟨Or.inl rfl, Or.inl rfl⟩
  | cons above rest =>
      have hle := hbelow above List.mem_cons_self
      have habove := hstops above List.mem_cons_self
      obtain ⟨hhead, htail⟩ := List.pairwise_cons.mp hapart
      by_cases htouch : e.stop = above.offset
      · -- the two become one extent, which ends where the upper one did
        have hlen : within span32 (e.len + above.len) = .ok (e.len + above.len) := by
          rw [within_eq_ok_iff]
          unfold Extent.stop at *
          exact ⟨by omega, rfl⟩
        refine ⟨⟨e.offset, e.len + above.len⟩, rest, ?_, rfl, ?_⟩
        · simp [joinAbove, stop32_eq_ok hstop, require, htouch, hlen, bind, Except.bind, pure,
            Except.pure]
        · have hstop' : (⟨e.offset, e.len + above.len⟩ : Extent).stop = above.stop := by
            unfold Extent.stop at *
            dsimp only
            omega
          refine ⟨?_, ?_, ?_, ?_⟩
          · rw [List.pairwise_cons, hstop']
            exact ⟨hhead, htail⟩
          · intro z hz
            rcases List.mem_cons.mp hz with rfl | hz
            · dsimp only
              omega
            · exact hpositive z (List.mem_cons_of_mem _ hz)
          · intro z hz
            rcases List.mem_cons.mp hz with rfl | hz
            · exact ⟨Or.inl rfl, Or.inr ⟨above, List.mem_cons_self, hstop'⟩⟩
            · exact endsAmong_of_mem (List.mem_cons_of_mem _ hz)
          · rw [bytesOf_cons, bytesOf_cons, ← add_assoc, ← Extent.bytes_add_bytes]
            unfold Extent.stop at htouch
            rw [htouch]
      · refine ⟨e, above :: rest, ?_, rfl, ?_⟩
        · simp [joinAbove, stop32_eq_ok hstop, require, hle, htouch, bind, Except.bind,
            pure, Except.pure]
        · refine ⟨?_, ?_, ?_, by simp⟩
          · rw [List.pairwise_cons]
            refine ⟨?_, hapart⟩
            intro z hz
            rcases List.mem_cons.mp hz with rfl | hz
            · omega
            · have := hhead z hz
              unfold Extent.stop at *
              omega
          · intro z hz
            rcases List.mem_cons.mp hz with rfl | hz
            · exact hpos
            · exact hpositive z hz
          · intro z hz
            rcases List.mem_cons.mp hz with rfl | hz
            · exact ⟨Or.inl rfl, Or.inl rfl⟩
            · exact endsAmong_of_mem hz

/-- An extent with a gap after it stays in front of what is inserted. -/
theorem Inserts.cons {e x : Extent} {extents joined : List Extent} (h : Inserts e extents joined)
    (hpos : 0 < x.len) (hgap : x.stop < e.offset) (hhead : ∀ y ∈ extents, x.stop < y.offset) :
    Inserts e (x :: extents) (x :: joined) := by
  refine ⟨List.pairwise_cons.mpr ⟨?_, h.apart⟩, ?_, ?_, ?_⟩
  · intro z hz
    rcases (h.ends z hz).1 with heq | ⟨w, hw, heq⟩
    · rw [heq]
      exact hgap
    · rw [heq]
      exact hhead w hw
  · intro z hz
    rcases List.mem_cons.mp hz with rfl | hz
    · exact hpos
    · exact h.positive z hz
  · intro z hz
    rcases List.mem_cons.mp hz with rfl | hz
    · exact endsAmong_of_mem List.mem_cons_self
    · exact (h.ends z hz).cons
  · rw [bytesOf_cons, h.bytes_eq, bytesOf_cons]
    abel

/-- An extent between its neighbours is put between them. -/
theorem atop_spec {e below : Extent} {above : List Extent} {size : Nat} (hsize : size < span32)
    (hpos : 0 < e.len) (hstop : e.stop ≤ size) (hstops : ∀ x ∈ below :: above, x.stop ≤ size)
    (hover : below.stop ≤ e.offset) (hunder : ∀ x ∈ above, e.stop ≤ x.offset)
    (hapart : (below :: above).Pairwise fun x y => x.stop < y.offset)
    (hpositive : ∀ x ∈ below :: above, 0 < x.len) :
    ∃ joined, insert.atop e below above = .ok joined ∧ Inserts e (below :: above) joined := by
  obtain ⟨hhead, htail⟩ := List.pairwise_cons.mp hapart
  obtain ⟨first, rest, heq, hoffset, hins⟩ := joinAbove_spec hpos (lt_of_le_of_lt hstop hsize)
    (fun x hx => lt_of_le_of_lt (hstops x (List.mem_cons_of_mem _ hx)) hsize) hunder htail
    (fun x hx => hpositive x (List.mem_cons_of_mem _ hx))
  have hbelow := lt_of_le_of_lt (hstops below List.mem_cons_self) hsize
  obtain ⟨hfirst, hrest⟩ := List.pairwise_cons.mp hins.apart
  have hstart : insert.atop e below above = joinBelow below e (first :: rest) := by
    simp [insert.atop, stop32_eq_ok hbelow, require, hover, heq, bind, Except.bind]
  by_cases htouch : below.stop = e.offset
  · -- the lower neighbour takes in `e` and what `e` was joined with
    have hends := (hins.ends first List.mem_cons_self).2
    have hlen : below.len + first.len < span32 := by
      have hle : first.stop ≤ size := by
        rcases hends with heq | ⟨x, hx, heq⟩
        · rw [heq]
          exact hstop
        · rw [heq]
          exact hstops x (List.mem_cons_of_mem _ hx)
      unfold Extent.stop at *
      omega
    have hwithin : within span32 (below.len + first.len) = .ok (below.len + first.len) :=
      within_eq_ok_iff.mpr ⟨hlen, rfl⟩
    have hstop' : (⟨below.offset, below.len + first.len⟩ : Extent).stop = first.stop := by
      unfold Extent.stop at *
      dsimp only
      omega
    refine ⟨⟨below.offset, below.len + first.len⟩ :: rest, ?_, ?_⟩
    · rw [hstart]
      simp [joinBelow, htouch, hwithin, bind, Except.bind, pure, Except.pure]
    · refine ⟨?_, ?_, ?_, ?_⟩
      · rw [List.pairwise_cons, hstop']
        exact ⟨hfirst, hrest⟩
      · intro z hz
        rcases List.mem_cons.mp hz with rfl | hz
        · have := hpositive below List.mem_cons_self
          dsimp only
          omega
        · exact hins.positive z (List.mem_cons_of_mem _ hz)
      · intro z hz
        rcases List.mem_cons.mp hz with rfl | hz
        · refine ⟨Or.inr ⟨below, List.mem_cons_self, rfl⟩, ?_⟩
          rw [hstop']
          rcases hends with heq | ⟨x, hx, heq⟩
          · exact Or.inl heq
          · exact Or.inr ⟨x, List.mem_cons_of_mem _ hx, heq⟩
        · exact (hins.ends z (List.mem_cons_of_mem _ hz)).cons
      · have hbytes := hins.bytes_eq
        have hfirst : (⟨below.offset, below.len + first.len⟩ : Extent).bytes =
            below.bytes + first.bytes := by
          rw [← Extent.bytes_add_bytes]
          unfold Extent.stop at htouch
          rw [htouch, ← hoffset]
        rw [bytesOf_cons] at hbytes ⊢
        rw [hfirst, add_assoc, hbytes, bytesOf_cons]
        abel
  · refine ⟨below :: first :: rest, ?_, hins.cons (hpositive below List.mem_cons_self) ?_ hhead⟩
    · rw [hstart]
      simp [joinBelow, htouch, pure, Except.pure]
    · omega

/-- The free extents from one on that starts past `e` lie past all of `e`. -/
theorem stop_le_of_offset_le {e x : Extent} {rest : List Extent} (hle : e.offset ≤ x.offset)
    (hdisjoint : ∀ y ∈ x :: rest, y.stop ≤ e.offset ∨ e.stop ≤ y.offset)
    (hapart : (x :: rest).Pairwise fun x y => x.stop < y.offset)
    (hpositive : ∀ y ∈ x :: rest, 0 < y.len) : ∀ y ∈ x :: rest, e.stop ≤ y.offset := by
  intro y hy
  have hx := hpositive x List.mem_cons_self
  have hdx := hdisjoint x List.mem_cons_self
  rcases List.mem_cons.mp hy with rfl | hy
  · unfold Extent.stop at *
    omega
  · have hlt := (List.pairwise_cons.mp hapart).1 y hy
    unfold Extent.stop at *
    omega

/-- An extent that overlaps none of the free ones is put among them. -/
theorem insert_spec {e : Extent} {extents : List Extent} {size : Nat} (hsize : size < span32)
    (hpos : 0 < e.len) (hstop : e.stop ≤ size) (hstops : ∀ x ∈ extents, x.stop ≤ size)
    (hdisjoint : ∀ x ∈ extents, x.stop ≤ e.offset ∨ e.stop ≤ x.offset)
    (hapart : extents.Pairwise fun x y => x.stop < y.offset)
    (hpositive : ∀ x ∈ extents, 0 < x.len) :
    ∃ joined, insert e extents = .ok joined ∧ Inserts e extents joined := by
  induction extents with
  | nil =>
      obtain ⟨first, rest, heq, _, hins⟩ := @joinAbove_spec _ [] hpos
        (lt_of_le_of_lt hstop hsize) (by simp) (by simp) (by simp) (by simp)
      exact ⟨_, heq, hins⟩
  | cons x rest ih =>
      by_cases hle : e.offset ≤ x.offset
      · obtain ⟨first, more, heq, _, hins⟩ := joinAbove_spec hpos (lt_of_le_of_lt hstop hsize)
          (fun y hy => lt_of_le_of_lt (hstops y hy) hsize)
          (stop_le_of_offset_le hle hdisjoint hapart hpositive) hapart hpositive
        refine ⟨_, ?_, hins⟩
        rw [insert.eq_def]
        simp only [hle, ↓reduceIte]
        exact heq
      · have hover : x.stop ≤ e.offset := by
          have := hdisjoint x List.mem_cons_self
          unfold Extent.stop at *
          omega
        cases rest with
        | nil =>
            obtain ⟨joined, heq, hins⟩ := atop_spec hsize hpos hstop hstops hover (by simp)
              hapart hpositive
            exact ⟨joined, by rw [insert, if_neg hle, heq], hins⟩
        | cons y more =>
            obtain ⟨hhead, htail⟩ := List.pairwise_cons.mp hapart
            have hdisjoint' := fun z hz => hdisjoint z (List.mem_cons_of_mem x hz)
            have hpositive' := fun z hz => hpositive z (List.mem_cons_of_mem x hz)
            by_cases hnext : e.offset ≤ y.offset
            · obtain ⟨joined, heq, hins⟩ := atop_spec hsize hpos hstop hstops hover
                (stop_le_of_offset_le hnext hdisjoint' htail hpositive') hapart hpositive
              exact ⟨joined, by rw [insert, if_neg hle, if_pos hnext, heq], hins⟩
            · obtain ⟨joined, heq, hins⟩ := ih
                (fun z hz => hstops z (List.mem_cons_of_mem _ hz)) hdisjoint' htail hpositive'
              refine ⟨x :: joined, ?_, hins.cons (hpositive x List.mem_cons_self) ?_ hhead⟩
              · rw [insert, if_neg hle, if_neg hnext, heq]
                rfl
              · have hgap := hhead y List.mem_cons_self
                omega

/-- What a release does: the bytes of the extent become free. -/
structure Releases (a : Arena) (size : Nat) (e : Extent) (left : Arena) : Prop where
  tidy : left.Tidy size
  bytes_eq : left.bytes = e.bytes + a.bytes
  aligned : e.Aligned → (∀ x ∈ a.extents, x.Aligned) → ∀ x ∈ left.extents, x.Aligned

/-- An extent of the arena none of whose bytes is free can be released. -/
theorem release_spec {a : Arena} {size : Nat} {e : Extent} (h : a.Tidy size)
    (hsize : size < span32) (hpos : 0 < e.len) (hstop : e.stop ≤ size)
    (howned : Disjoint e.bytes a.bytes) :
    ∃ left, a.release e = .ok left ∧ a.Releases size e left := by
  have hdisjoint : ∀ x ∈ a.extents, x.stop ≤ e.offset ∨ e.stop ≤ x.offset := by
    intro x hx
    have hxpos := h.positive x hx
    by_contra hcross
    -- the higher of the two offsets is a byte of both
    have hboth : max e.offset x.offset ∈ e.bytes ∧ max e.offset x.offset ∈ x.bytes := by
      simp only [Extent.mem_bytes]
      unfold Extent.stop at *
      omega
    exact Multiset.disjoint_left.mp howned hboth.1 (mem_bytesOf.mpr ⟨x, hx, hboth.2⟩)
  obtain ⟨joined, heq, hins⟩ := insert_spec hsize hpos hstop h.inside hdisjoint h.apart
    h.positive
  refine ⟨⟨joined, a.freeBytes + e.len⟩, ?_, ⟨hins.apart, hins.positive, ?_, ?_⟩,
    hins.bytes_eq, ?_⟩
  · rw [release, if_neg (by omega), heq]
    rfl
  · intro z hz
    rcases (hins.ends z hz).2 with heq | ⟨x, hx, heq⟩
    · rw [heq]
      exact hstop
    · rw [heq]
      exact h.inside x hx
  · have hcard := congrArg Multiset.card hins.bytes_eq
    rw [Multiset.card_add, card_bytesOf, card_bytesOf, Extent.card_bytes] at hcard
    rw [hcard, ← h.freeBytes_eq]
    exact add_comm _ _
  · intro he hall z hz
    obtain ⟨hoffset, hend⟩ := hins.ends z hz
    have hends : ∀ x : Extent, x.Aligned → 8 ∣ x.offset ∧ 8 ∣ x.stop := fun x hx =>
      ⟨hx.1, Nat.dvd_add hx.1 hx.2⟩
    have hzoffset : 8 ∣ z.offset := by
      rcases hoffset with heq | ⟨x, hx, heq⟩
      · exact heq ▸ (hends e he).1
      · exact heq ▸ (hends x (hall x hx)).1
    have hzstop : 8 ∣ z.stop := by
      rcases hend with heq | ⟨x, hx, heq⟩
      · exact heq ▸ (hends e he).2
      · exact heq ▸ (hends x (hall x hx)).2
    exact ⟨hzoffset, (Nat.dvd_add_iff_right hzoffset).mpr hzstop⟩

end Arena

end ObjectHeap
