import Cs537.P5.Fixed

/-!
# Where a new mapping goes

Two searches look for the place of a new mapping: `check_mmap_possible` at the hint of the caller,
and `find_mmap_addr` behind the first entry with a gap. In a table without stale slots either one
that succeeds has moved the entries above the place up by one and left the range apart from all of
them. A sum that wraps may let a gap seem to fit, but then `setup_mmap_arr` finds the range above
`KERNBASE` and fails.
-/

namespace Cs537.P5

open Cs537.Lib

namespace Table

variable {t : Table} {addr size : Int}

/-- A table in order with a free slot, whose mappings all end below `KERNBASE` and whose other slots
are zeroed. -/
structure Compact (t : Table) : Prop extends t.InOrder where
  total_pos : 1 ≤ t.totalVmas
  total_lt : t.totalVmas ≤ 31
  ends : ∀ i, 0 ≤ i → i < t.totalVmas →
    alignUp pgsize ((t.vmas i).addr + (t.vmas i).len) < kernBase
  zero : ∀ i, t.totalVmas ≤ i → i < 32 → t.vmas i = ⟨⟨0, 0, 0, 0, 0, 0⟩, 0, 0, 0⟩

/-- In `t'` the slots up to `total_vmas` hold the entries of `t` in order, around a new one of the
given size in slot `k`, whose pages lie in the part for mappings and belong to no other entry. -/
structure Inserted (t t' : Table) (size k : Int) : Prop where
  nonneg : 0 ≤ k
  le : k ≤ t.totalVmas
  total : t'.totalVmas = t.totalVmas
  before : ∀ j, 0 ≤ j → j < k → (t'.vmas j).toArea = (t.vmas j).toArea
  behind : ∀ j, k < j → j ≤ t.totalVmas → (t'.vmas j).toArea = (t.vmas (j - 1)).toArea
  len : (t'.vmas k).len = size
  aligned : pgsize ∣ (t'.vmas k).addr
  base_le : mmapBase ≤ (t'.vmas k).addr
  end_lt : alignUp pgsize ((t'.vmas k).addr + (t'.vmas k).len) < kernBase
  disjoint : ∀ j, 0 ≤ j → j ≤ t.totalVmas → j ≠ k → ∀ x, (t'.vmas k).addr ≤ x →
    x < alignUp pgsize ((t'.vmas k).addr + (t'.vmas k).len) →
      ¬ ((t'.vmas j).addr ≤ x ∧ x < alignUp pgsize ((t'.vmas j).addr + (t'.vmas j).len))

/-! ## Making room -/

/-- The entries after `setup_mmap_arr` has made room behind entry `i`. -/
theorem setupMmapArr_areas {i a : Int} (hfits : Fits size a) :
    (∀ j, j < i + 1 → ((t.setupMmapArr size i a).2.vmas j).toArea = (t.vmas j).toArea) ∧
      (∀ j, i + 1 < j → j ≤ t.totalVmas →
        ((t.setupMmapArr size i a).2.vmas j).toArea = (t.vmas (j - 1)).toArea) := by
  unfold Fits at hfits
  unfold setupMmapArr
  simp only
  rw [if_neg (by omega)]
  constructor
  · intro j hj
    simp only [set, Function.update_of_ne (show j ≠ i + 1 by omega), shiftUp_apply]
    rw [if_neg (by omega)]
  · intro j hj hle
    simp only [set, Function.update_of_ne (show j ≠ i + 1 by omega), shiftUp_apply]
    rw [if_pos (by omega)]
    rfl

/-- An entry `i` behind which a range at `a` may be put: it ends in front of the range, and the next
one begins behind it unless the range reaches up to `KERNBASE`. -/
structure Room (t : Table) (size i a : Int) : Prop where
  index : -1 ≤ i
  lt : i < t.totalVmas
  aligned : pgsize ∣ a
  base_le : mmapBase ≤ a
  addr_lt : a < kernBase
  low : 0 ≤ i → (t.spans i).roundEnd ≤ a
  high : i + 1 < t.totalVmas → a + size < kernBase → a + size ≤ (t.spans (i + 1)).addr

/-- `setup_mmap_arr` at such a place, if it succeeds. -/
theorem Room.inserted {i a : Int} (hroom : t.Room size i a) (h : t.InOrder) (hsize : 0 < size)
    (hmax : size < 2 ^ 31) (hk : 0 ≤ (t.setupMmapArr size i a).1) :
    t.Inserted (t.setupMmapArr size i a).2 size (t.setupMmapArr size i a).1 := by
  have hm : mmapBase = 0x60000000 := rfl
  have hkern : kernBase = 0x80000000 := rfl
  obtain ⟨hindex, hlt, haligned, hbase, haddr, hlow, hhigh⟩ := hroom
  have hfits : Fits size a := by
    by_contra hfail
    unfold Fits at hfail
    rw [setupMmapArr_of_ge (by omega)] at hk
    exact absurd (show (0 : Int) ≤ -1 from hk) (by decide)
  have hend : (Span.mk a size).roundEnd < kernBase := by
    have hexact := u32_pgroundup_i32 (x := a + size) (by omega)
      (alignUp_lt_of_int haligned (by omega) hmax)
    unfold Fits at hfits
    rwa [hexact] at hfits
  have hround := (Span.mk a size).le_roundEnd
  simp only at hround
  obtain ⟨hbefore, hbehind⟩ := setupMmapArr_areas (t := t) (i := i) hfits
  obtain ⟨hresult, htotal, hspans⟩ := setupMmapArr_of_lt (t := t) (i := i) hfits
  have hnew := hspans (i + 1)
  rw [if_pos rfl] at hnew
  have hnewAddr : ((t.setupMmapArr size i a).2.vmas (i + 1)).addr = a := congrArg Span.addr hnew
  have hnewLen : ((t.setupMmapArr size i a).2.vmas (i + 1)).len = size := congrArg Span.len hnew
  -- no entry meets the range: those in front of it end there, those behind it begin there
  have hfront {j : Int} (h0 : 0 ≤ j) (hj : j ≤ i) : (t.spans j).roundEnd ≤ a := by
    have := h.roundEnd_le h0 hj hlt
    have := hlow (by omega)
    omega
  have hback {j : Int} (hj : i + 1 ≤ j) (hjt : j < t.totalVmas) :
      (Span.mk a size).roundEnd ≤ (t.spans j).addr := by
    have hnext := h.placed (i := i + 1) (by omega) (by omega)
    have hfirst := Span.roundEnd_le (s := ⟨a, size⟩) hnext.aligned
      (hhigh (by omega) (by show a + size < kernBase; omega))
    have := h.addr_le (by omega) hj hjt
    omega
  rw [hresult]
  refine ⟨by omega, by omega, htotal, fun j _ => hbefore j, hbehind, hnewLen, ?_, ?_, ?_, ?_⟩
  · rwa [hnewAddr]
  · rwa [hnewAddr]
  · rw [hnewAddr, hnewLen]
    exact hend
  · rintro j h0 hjt hne x hx hx' ⟨hy, hy'⟩
    rw [hnewAddr] at hx
    rw [hnewAddr, hnewLen] at hx'
    have hspan := hspans j
    rw [if_neg hne] at hspan
    change ((t.setupMmapArr size i a).2.spans j).addr ≤ x at hy
    change x < ((t.setupMmapArr size i a).2.spans j).roundEnd at hy'
    change x < (Span.mk a size).roundEnd at hx'
    rw [hspan] at hy hy'
    by_cases hji : j ≤ i
    · rw [if_neg (by omega)] at hy'
      have := hfront h0 hji
      omega
    · rw [if_pos (by omega)] at hy
      have := hback (j := j - 1) (by omega) (by omega)
      omega

/-! ## The two searches -/

/-- The gap at which the loop of `check_mmap_possible` stops. -/
theorem gapIndex_gap {a : Int} {n : Nat} {i j : Int} (h : t.gapIndex a size n i = some j) :
    t.endOf j < a ∧ i32 (a + size) < pgroundup (t.vmas (j + 1)).addr := by
  induction n generalizing i with
  | zero => cases h
  | succ n ih =>
    rw [gapIndex] at h
    by_cases hpast : a ≤ (t.vmas i).addr
    · rw [if_pos hpast] at h
      cases h
    · rw [if_neg hpast] at h
      by_cases hgap : t.endOf i < a ∧ i32 (a + size) < pgroundup (t.vmas (i + 1)).addr
      · rw [if_pos hgap, Option.some.injEq] at h
        rwa [← h]
      · rw [if_neg hgap] at h
        exact ih h

theorem Compact.endOf_eq (h : t.Compact) {i : Int} (h0 : 0 ≤ i) (hi : i < t.totalVmas) :
    t.endOf i = (t.spans i).roundEnd :=
  Table.endOf_eq (h.placed h0 hi) (h.ends i h0 hi)

/-- The place at the hint. -/
theorem Compact.checkIndex_room (h : t.Compact) {i : Int} (hsize : 0 < size)
    (hindex : t.checkIndex addr size = some i) : t.Room size i (pgroundup addr) := by
  have hm : mmapBase = 0x60000000 := rfl
  have hkern : kernBase = 0x80000000 := rfl
  have hpos := h.total_pos
  have hmem := pgroundup_mem addr
  unfold checkIndex at hindex
  by_cases hlast : t.endOf (t.totalVmas - 1) < pgroundup addr
  · rw [if_pos hlast, Option.some.injEq] at hindex
    obtain rfl := hindex
    have hplaced := h.placed (i := t.totalVmas - 1) (by omega) (by omega)
    have hbase := hplaced.base_le
    have haddr := hplaced.addr_lt
    rw [h.endOf_eq (by omega) (by omega)] at hlast
    exact ⟨by omega, by omega, dvd_pgroundup addr, by omega, by omega, fun _ => by omega,
      fun hlt => by omega⟩
  · rw [if_neg hlast] at hindex
    obtain ⟨h0, hi⟩ := gapIndex_mem hindex
    obtain ⟨hend, hgap⟩ := gapIndex_gap hindex
    have hplaced := h.placed (i := i) (by omega) (by omega)
    have hnext := h.placed (i := i + 1) (by omega) (by omega)
    have hbase := hplaced.base_le
    have haddr := hplaced.addr_lt
    have hround : pgroundup (t.vmas (i + 1)).addr = (t.spans (i + 1)).addr := hnext.pgroundup_addr
    rw [h.endOf_eq (by omega) (by omega)] at hend
    refine ⟨by omega, by omega, dvd_pgroundup addr, by omega, by omega, fun _ => by omega, ?_⟩
    -- below `KERNBASE` the sum does not wrap
    intro _ hbelow
    rw [hround, i32_of_mem (by omega) (by omega)] at hgap
    omega

/-- The place in the first gap, or behind the last entry. -/
theorem Compact.findPlace_room (h : t.Compact) (hsize : 0 < size) (hmax : size < 2 ^ 31)
    {x : Int × Int} (hplace : t.findPlace size = some x) : t.Room size x.1 x.2 := by
  have hm : mmapBase = 0x60000000 := rfl
  have hkern : kernBase = 0x80000000 := rfl
  have hpos := h.total_pos
  have hfirst := h.placed (Int.le_refl 0) (by omega)
  have hlow := hfirst.base_le
  have hhigh := hfirst.addr_lt_kernBase
  have haddr : (t.vmas 0).addr = (t.spans 0).addr := rfl
  unfold findPlace at hplace
  rw [if_neg (by omega), haddr, i32_of_mem (by omega) (by omega)] at hplace
  by_cases hfront : size < (t.spans 0).addr - mmapBase
  · rw [if_pos hfront, Option.some.injEq] at hplace
    obtain rfl := hplace
    exact ⟨Int.le_refl _, by show (-1 : Int) < _; omega, by decide, Int.le_refl _, by decide,
      fun h0 => absurd h0 (by decide), fun _ _ => by show mmapBase + size ≤ (t.spans 0).addr; omega⟩
  · rw [if_neg hfront] at hplace
    obtain ⟨h1, h2, hpassed, hstop⟩ := t.findGap_spec size t.totalVmas.toNat 0
    simp only at hplace
    generalize t.findGap size t.totalVmas.toNat 0 = i at h1 h2 hpassed hstop hplace
    -- the slot behind the live ones is zeroed, so the search does not go past it
    have hlive : i < t.totalVmas := by
      by_contra hge
      have hused := (hpassed (t.totalVmas - 1) (by omega) (by omega)).1
      rw [show t.totalVmas - 1 + 1 = t.totalVmas by omega,
        h.zero t.totalVmas (Int.le_refl _) (by have := h.total_lt; omega)] at hused
      exact hused rfl
    have hplaced := h.placed h1 hlive
    have hbase := hplaced.base_le
    have hspan := hplaced.addr_lt
    have hend : (t.spans i).roundEnd < kernBase := h.ends i h1 hlive
    have hexact : u32 (t.spans i).roundEnd = (t.spans i).roundEnd :=
      u32_of_mem (by omega) (by omega)
    rw [h.endOf_eq h1 hlive, hexact] at hplace
    by_cases hover : kernBase < u32 ((t.spans i).roundEnd + size)
    · rw [if_pos hover] at hplace
      cases hplace
    · rw [if_neg hover, Option.some.injEq, i32_of_mem (by omega) (by omega)] at hplace
      obtain rfl := hplace
      refine ⟨by show -1 ≤ i; omega, hlive, dvd_alignUp _, ?_, hend, fun _ => Int.le_refl _, ?_⟩
      · show mmapBase ≤ (t.spans i).roundEnd
        omega
      · intro hlt _
        exact Int.le_of_lt (fits_of_stop hplaced (h.placed (by omega) hlt)
          (h.sorted i (i + 1) h1 (by omega) hlt) hsize hmax (hstop (by omega)))

/-- Whichever search returns a slot, the new entry is there, between the old ones and apart from
them. -/
theorem placement_sound (h : t.Compact) (addr : Int) (hsize : 0 < size) (hmax : size < 2 ^ 31) :
    ∀ r, r = t.checkMmapPossible addr size ∨ r = t.findMmapAddr size → 0 ≤ r.1 →
      t.Inserted r.2 size r.1 := by
  rintro r (rfl | rfl) hk
  · rw [checkMmapPossible_eq] at hk ⊢
    cases hindex : t.checkIndex addr size with
    | none =>
      rw [hindex] at hk
      exact absurd (show (0 : Int) ≤ -1 from hk) (by decide)
    | some i =>
      rw [hindex] at hk
      exact (h.checkIndex_room hsize hindex).inserted h.toInOrder hsize hmax hk
  · rw [findMmapAddr_eq] at hk ⊢
    cases hplace : t.findPlace size with
    | none =>
      rw [hplace] at hk
      exact absurd (show (0 : Int) ≤ -1 from hk) (by decide)
    | some x =>
      rw [hplace] at hk
      exact (h.findPlace_room hsize hmax hplace).inserted h.toInOrder hsize hmax hk

theorem onePage_compact : onePage.Compact := by
  have hfirst {i : Int} (h0 : 0 ≤ i) (hi : i < onePage.totalVmas) : i = 0 := by
    rw [onePage_total] at hi
    omega
  have hrest : ∀ j : Fin 31, onePage.vmas (j + 1) = ⟨⟨0, 0, 0, 0, 0, 0⟩, 0, 0, 0⟩ := by
    decide +kernel
  refine ⟨onePage_inOrder, by rw [onePage_total], by rw [onePage_total]; decide, ?_, ?_⟩
  · intro i h0 hi
    rw [hfirst h0 hi]
    show (onePage.spans 0).roundEnd < kernBase
    rw [onePage_span]
    decide
  · intro i h1 hi
    rw [onePage_total] at h1
    have hslot := hrest ⟨(i - 1).toNat, by omega⟩
    rwa [show ((i - 1).toNat : Int) + 1 = i by omega] at hslot

/-- The theorem where the hint is refused and the second search puts the range behind the entry. -/
theorem placement_sound_next_page :
    (onePage.checkMmapPossible mmapBase 8192).1 = -1 ∧
      onePage.Inserted (onePage.findMmapAddr 8192).2 8192 1 := by
  have hresult : (onePage.findMmapAddr 8192).1 = 1 := by decide +kernel
  have hinserted := placement_sound onePage_compact mmapBase (by decide : (0 : Int) < 8192)
    (by decide) (onePage.findMmapAddr 8192) (.inr rfl) (by rw [hresult]; decide)
  rw [hresult] at hinserted
  exact ⟨by decide +kernel, hinserted⟩

end Table

end Cs537.P5
