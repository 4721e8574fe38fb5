import Cs537.P5.Spans

/-!
# Placing a mapping

What `ummap` does to a table that is in order. `check_mmap_possible` and `find_mmap_addr` either
fail and leave the table as it was, or insert a range of pages between its neighbours; the
second one may also take a slot behind the live entries for an entry and put the range behind
that. The calls for which this holds are described by `Placeable`.
-/

namespace Cs537.P5

open Cs537.Lib

/-! ## Rounding -/

theorem pgroundup_mem (x : Int) : -2 ^ 31 ≤ pgroundup x ∧ pgroundup x < 2 ^ 31 := i32_mem _

theorem dvd_pgroundup (x : Int) : pgsize ∣ pgroundup x := by
  unfold pgroundup i32 alignUp pgsize
  omega

theorem pgroundup_i32 (x : Int) : pgroundup (i32 x) = i32 (alignUp pgsize x) := by
  unfold pgroundup i32 alignUp pgsize
  omega

theorem pgroundup_of_dvd {x : Int} (hx : pgsize ∣ x) (hlo : -2 ^ 31 ≤ x) (hhi : x < 2 ^ 31) :
    pgroundup x = x := by
  unfold pgroundup
  rw [alignUp_of_dvd Span.pgsize_pos x hx, i32_of_mem hlo hhi]

/-- `PGROUNDUP` of a sum that is not negative, taken as `unsigned`. -/
theorem u32_pgroundup_i32 {x : Int} (h0 : 0 ≤ x) (hhi : alignUp pgsize x < 2 ^ 32) :
    u32 (pgroundup (i32 x)) = alignUp pgsize x := by
  have := le_alignUp Span.pgsize_pos x
  rw [pgroundup_i32, u32_i32, u32_of_mem (by omega) hhi]

theorem Span.Placed.pgroundup_addr {s : Span} (h : s.Placed) : pgroundup s.addr = s.addr := by
  have hlo := h.base_le
  have hhi := h.addr_lt_kernBase
  unfold mmapBase at hlo
  unfold kernBase at hhi
  exact pgroundup_of_dvd h.aligned (by omega) (by omega)

theorem Span.Spare.pgroundup_addr {s : Span} (h : s.Spare) :
    0 ≤ pgroundup s.addr ∧ pgroundup s.addr ≤ mmapBase := by
  obtain ⟨h0, hlt, -⟩ := h
  have hle := le_alignUp Span.pgsize_pos s.addr
  have hbase : alignUp pgsize s.addr ≤ mmapBase :=
    alignUp_le Span.pgsize_pos _ (by decide) (Int.le_of_lt hlt)
  have hm : mmapBase = 0x60000000 := rfl
  have heq : pgroundup s.addr = alignUp pgsize s.addr := i32_of_mem (by omega) (by omega)
  rw [heq]
  omega

/-- The page-rounded end of a range above `MMAPBASE` with a positive length is not cut down to
32 bits. -/
theorem alignUp_lt_of_int {a size : Int} (ha : pgsize ∣ a) (hhi : a < 2 ^ 31)
    (hsize : size < 2 ^ 31) : alignUp pgsize (a + size) < 2 ^ 32 := by
  unfold pgsize at ha
  unfold alignUp pgsize
  omega

namespace Table

variable {t t' : Table} {addr size : Int}

/-! ## The slots as ranges -/

/-- Where the entries lie. -/
def spans (t : Table) : Int → Span := fun i => ⟨(t.vmas i).addr, (t.vmas i).len⟩

/-- The invariant of the runs. -/
def Inv (t : Table) : Prop := SpansOk t.spans t.totalVmas

@[simp] theorem spans_set (t : Table) (i : Int) (v : Vma) :
    (t.set i v).spans = Function.update t.spans i ⟨v.addr, v.len⟩ := by
  funext j
  unfold spans set
  by_cases hj : j = i
  · subst hj
    simp
  · simp [hj]

@[simp] theorem totalVmas_set (t : Table) (i : Int) (v : Vma) :
    (t.set i v).totalVmas = t.totalVmas := rfl

theorem u32_endOf {i : Int} (h : (t.spans i).Placed) : u32 (t.endOf i) = (t.spans i).roundEnd := by
  have hlen := h.len_pos
  have hbase := h.base_le
  have hend := h.end_le
  unfold mmapBase at hbase
  unfold kernBase at hend
  exact u32_pgroundup_i32 (by show 0 ≤ (t.spans i).addr + (t.spans i).len; omega)
    (by show (t.spans i).roundEnd < 2 ^ 32; omega)

theorem endOf_eq {i : Int} (h : (t.spans i).Placed) (hlt : (t.spans i).roundEnd < kernBase) :
    t.endOf i = (t.spans i).roundEnd := by
  have haddr := h.addr_lt
  have hbase := h.base_le
  unfold mmapBase at hbase
  unfold kernBase at hlt
  show pgroundup (i32 ((t.spans i).addr + (t.spans i).len)) = _
  rw [pgroundup_i32]
  exact i32_of_mem (by show -2 ^ 31 ≤ (t.spans i).roundEnd; omega)
    (by show (t.spans i).roundEnd < 2 ^ 31; omega)

theorem endOf_mem (t : Table) (i : Int) : -2 ^ 31 ≤ t.endOf i ∧ t.endOf i < 2 ^ 31 :=
  pgroundup_mem _

/-! ## Placing a mapping -/

/-- How a mapping was placed: inserted between its neighbours, or put behind a slot that has
become live again. -/
inductive Placement (t t' : Table) (k : Int) (x : Span) : Prop
  | inserted (nonneg : 0 ≤ k) (le : k ≤ t.totalVmas) (total : t'.totalVmas = t.totalVmas)
      (placed : x.Placed) (below : 0 < k → (t.spans (k - 1)).roundEnd ≤ x.addr)
      (above : k < t.totalVmas → x.roundEnd ≤ (t.spans k).addr)
      (inside : ∀ j, j ≤ t.totalVmas → t'.spans j = insertAt t.spans k x j)
      (outside : ∀ j, t.totalVmas < j → t'.spans j = t.spans j)
  | absorbed (index : k = t.totalVmas + 1) (total : t'.totalVmas = t.totalVmas)
      (placed : x.Placed) (next : (t.spans t.totalVmas).Placed)
      (below : 0 < t.totalVmas →
        (t.spans (t.totalVmas - 1)).roundEnd ≤ (t.spans t.totalVmas).addr)
      (slots : t'.spans = Function.update t.spans k x)

/-- What the functions that place a mapping return: -1 and the table as it was, or an index and
the table with the mapping there. -/
def Placing (t : Table) (size : Int) (r : Int × Table) : Prop :=
  (r.1 = -1 ∧ r.2 = t) ∨ (0 ≤ r.1 ∧ ∃ a, Placement t r.2 r.1 ⟨a, size⟩)

/-- Counting the new mapping keeps the invariant. -/
theorem Placement.spansOk (h : t.Inv) (hroom : t.totalVmas < 32) {k : Int} {x : Span}
    (hp : Placement t t' k x) : SpansOk t'.spans (t'.totalVmas + 1) := by
  cases hp with
  | inserted nonneg le total placed below above inside outside =>
    rw [total]
    exact SpansOk.insert h hroom nonneg le placed below above inside outside
  | absorbed index total placed next below slots =>
    rw [total, slots, index]
    exact SpansOk.absorb h hroom next below placed

section Setup

variable {i mmapaddr : Int}

/-- `setup_mmap_arr` on an address that is too high moves the entries above `i` up and fails. -/
theorem setupMmapArr_of_ge
    (h : kernBase ≤ u32 (pgroundup (i32 (mmapaddr + size)))) :
    t.setupMmapArr size i mmapaddr =
      (-1, { t with
        vmas := shiftUp copyMmapStruct t.vmas (t.totalVmas - (i + 1)).toNat t.totalVmas }) :=
  if_pos h

/-- `setup_mmap_arr` at the end of the table moves nothing, so it fails without a trace. -/
theorem setupMmapArr_of_last (hi : t.totalVmas ≤ i + 1)
    (h : kernBase ≤ u32 (pgroundup (i32 (mmapaddr + size)))) :
    t.setupMmapArr size i mmapaddr = (-1, t) := by
  have hzero : (t.totalVmas - (i + 1)).toNat = 0 := by omega
  rw [setupMmapArr_of_ge h, hzero]
  rfl

theorem setupMmapArr_of_lt (h : u32 (pgroundup (i32 (mmapaddr + size))) < kernBase) :
    (t.setupMmapArr size i mmapaddr).1 = i + 1 ∧
      (t.setupMmapArr size i mmapaddr).2.totalVmas = t.totalVmas ∧
      ∀ j, (t.setupMmapArr size i mmapaddr).2.spans j =
        if j = i + 1 then ⟨mmapaddr, size⟩
        else if i + 1 < j ∧ j ≤ t.totalVmas then t.spans (j - 1) else t.spans j := by
  unfold setupMmapArr
  simp only
  rw [if_neg (by omega)]
  refine ⟨rfl, rfl, ?_⟩
  intro j
  rw [spans_set]
  by_cases hj : j = i + 1
  · rw [if_pos hj, hj, Function.update_self]
  · rw [if_neg hj, Function.update_of_ne hj]
    unfold spans
    simp only [shiftUp_apply]
    by_cases hin : i + 1 < j ∧ j ≤ t.totalVmas
    · rw [if_pos hin, if_pos (by omega)]
      rfl
    · rw [if_neg hin, if_neg (by omega)]

/-- `setup_mmap_arr` inserts a range that fits between its neighbours. -/
theorem setupMmapArr_placing (hi : -1 ≤ i) (hle : i + 1 ≤ t.totalVmas)
    (hplaced : (Span.mk mmapaddr size).roundEnd < kernBase → (Span.mk mmapaddr size).Placed)
    (hpos : 0 ≤ mmapaddr + size) (hmax : (Span.mk mmapaddr size).roundEnd < 2 ^ 32)
    (hbelow : 0 ≤ i → (t.spans i).roundEnd ≤ mmapaddr)
    (habove : i + 1 < t.totalVmas →
      (Span.mk mmapaddr size).roundEnd ≤ (t.spans (i + 1)).addr ∧
        (Span.mk mmapaddr size).roundEnd < kernBase) :
    t.Placing size (t.setupMmapArr size i mmapaddr) := by
  have hend : u32 (pgroundup (i32 (mmapaddr + size))) = (Span.mk mmapaddr size).roundEnd :=
    u32_pgroundup_i32 hpos hmax
  by_cases hhigh : kernBase ≤ u32 (pgroundup (i32 (mmapaddr + size)))
  · -- only a mapping at the end can be too high
    left
    have hlast : t.totalVmas ≤ i + 1 := by
      by_contra hlt
      have := (habove (by omega)).2
      omega
    rw [setupMmapArr_of_last hlast hhigh]
    exact ⟨rfl, rfl⟩
  · right
    obtain ⟨hindex, htotal, hspans⟩ := setupMmapArr_of_lt (t := t) (i := i) (by omega :
      u32 (pgroundup (i32 (mmapaddr + size))) < kernBase)
    rw [hindex]
    refine ⟨by omega, mmapaddr, .inserted (by omega) hle htotal (hplaced (by omega)) ?_ ?_ ?_ ?_⟩
    · intro h
      rw [show i + 1 - 1 = i by omega]
      exact hbelow (by omega)
    · intro h
      exact (habove h).1
    · intro j hj
      rw [hspans]
      unfold insertAt
      by_cases hjk : j = i + 1
      · rw [if_pos hjk, if_neg (by omega), if_pos hjk]
      · rw [if_neg hjk]
        by_cases hlt : j < i + 1
        · rw [if_neg (by omega), if_pos hlt]
        · rw [if_pos (by omega), if_neg hlt, if_neg hjk]
    · intro j hj
      rw [hspans, if_neg (by omega), if_neg (by omega)]

/-- `setup_mmap_arr` behind a slot that is not live puts the range into the slot after it. -/
theorem setupMmapArr_absorbing (hnext : (t.spans t.totalVmas).Placed)
    (hbelow : 0 < t.totalVmas →
      (t.spans (t.totalVmas - 1)).roundEnd ≤ (t.spans t.totalVmas).addr)
    (hplaced : (Span.mk mmapaddr size).roundEnd < kernBase → (Span.mk mmapaddr size).Placed)
    (hpos : 0 ≤ mmapaddr + size) (hmax : (Span.mk mmapaddr size).roundEnd < 2 ^ 32)
    (hnonneg : 0 ≤ t.totalVmas) :
    t.Placing size (t.setupMmapArr size t.totalVmas mmapaddr) := by
  have hend : u32 (pgroundup (i32 (mmapaddr + size))) = (Span.mk mmapaddr size).roundEnd :=
    u32_pgroundup_i32 hpos hmax
  by_cases hhigh : kernBase ≤ u32 (pgroundup (i32 (mmapaddr + size)))
  · left
    rw [setupMmapArr_of_last (by omega) hhigh]
    exact ⟨rfl, rfl⟩
  · right
    obtain ⟨hindex, htotal, hspans⟩ := setupMmapArr_of_lt (t := t) (i := t.totalVmas) (by omega :
      u32 (pgroundup (i32 (mmapaddr + size))) < kernBase)
    rw [hindex]
    refine ⟨by omega, mmapaddr, .absorbed rfl htotal (hplaced (by omega)) hnext hbelow ?_⟩
    funext j
    rw [hspans]
    by_cases hj : j = t.totalVmas + 1
    · rw [if_pos hj, hj, Function.update_self]
    · rw [if_neg hj, if_neg (by omega), Function.update_of_ne hj]

end Setup

/-- A page-aligned address above `MMAPBASE` and a positive length make a range that a mapping
may have, if it ends below `KERNBASE`. -/
theorem placed_of_roundEnd_lt {a : Int} (ha : pgsize ∣ a) (hbase : mmapBase ≤ a)
    (hsize : 0 < size) (hend : (Span.mk a size).roundEnd < kernBase) : (Span.mk a size).Placed :=
  ⟨ha, hsize, hbase, Int.le_of_lt hend⟩

/-- The loop of `check_mmap_possible` from index `i` on. -/
theorem checkGaps_placing (h : t.Inv) {a : Int} (ha : pgsize ∣ a)
    (hsize : 0 < size) (hmax : size < 2 ^ 31) (hend : (Span.mk a size).roundEnd ≤ kernBase)
    (hwrap : 2 ≤ t.totalVmas → a + size ≠ kernBase) {n : Nat} {i : Int} (hi : 0 ≤ i)
    (hn : i + n ≤ t.totalVmas - 1) : t.Placing size (t.checkGaps a size n i) := by
  induction n generalizing i with
  | zero => exact .inl ⟨rfl, rfl⟩
  | succ n ih =>
    rw [checkGaps]
    by_cases hstart : a ≤ (t.vmas i).addr
    · rw [if_pos hstart]
      exact .inl ⟨rfl, rfl⟩
    · rw [if_neg hstart]
      by_cases hgap : t.endOf i < a ∧ i32 (a + size) < pgroundup (t.vmas (i + 1)).addr
      · rw [if_pos hgap]
        obtain ⟨hlow, hhigh⟩ := hgap
        have hthis := h.live i hi (by omega)
        have hnext := h.live (i + 1) (by omega) (by omega)
        have hsorted := h.sorted i (i + 1) hi (by omega) (by omega)
        have hkern := hnext.addr_lt_kernBase
        rw [endOf_eq hthis (by omega)] at hlow
        have hround : pgroundup (t.vmas (i + 1)).addr = (t.spans (i + 1)).addr :=
          hnext.pgroundup_addr
        have hbase := hthis.base_le
        have haddr := hthis.addr_lt
        have hle := (Span.mk a size).le_roundEnd
        have hne := hwrap (by omega)
        have hm : mmapBase = 0x60000000 := rfl
        have hk : kernBase = 0x80000000 := rfl
        simp only at hle
        rw [hround, i32_of_mem (by omega) (by omega)] at hhigh
        have hfits : (Span.mk a size).roundEnd ≤ (t.spans (i + 1)).addr :=
          Span.roundEnd_le hnext.aligned (Int.le_of_lt hhigh)
        apply setupMmapArr_placing (by omega) (by omega)
        · exact placed_of_roundEnd_lt ha (by omega) hsize
        · omega
        · omega
        · intro _
          omega
        · intro _
          exact ⟨hfits, by omega⟩
      · rw [if_neg hgap]
        exact ih (by omega) (by push_cast at hn; omega)

/-- `check_mmap_possible` inserts the range at the rounded hint, or leaves the table as it was. -/
theorem checkMmapPossible_placing (h : t.Inv) (hsize : 0 < size) (hmax : size < 2 ^ 31)
    (hend : u32 (pgroundup (i32 (pgroundup addr + size))) ≤ kernBase)
    (hempty : t.totalVmas = 0 → mmapBase ≤ pgroundup addr ∨ pgroundup addr ≤ t.endOf (-1))
    (hlast : t.totalVmas ≠ 0 → (t.spans (t.totalVmas - 1)).roundEnd < kernBase)
    (hwrap : 2 ≤ t.totalVmas → pgroundup addr + size ≠ kernBase) :
    t.Placing size (t.checkMmapPossible addr size) := by
  have hmem := pgroundup_mem addr
  have ha := dvd_pgroundup addr
  have hm : mmapBase = 0x60000000 := rfl
  have hk : kernBase = 0x80000000 := rfl
  have hnonneg := h.nonneg
  -- for a hint above `MMAPBASE` the check of `ummap` is about the exact end
  have hexact : mmapBase ≤ pgroundup addr →
      (Span.mk (pgroundup addr) size).roundEnd < 2 ^ 32 ∧
        (Span.mk (pgroundup addr) size).roundEnd ≤ kernBase := by
    intro hbase
    have hlt := alignUp_lt_of_int ha hmem.2 hmax
    rw [u32_pgroundup_i32 (by omega) hlt] at hend
    exact ⟨hlt, hend⟩
  unfold checkMmapPossible
  simp only
  by_cases hafter : t.endOf (t.totalVmas - 1) < pgroundup addr
  · rw [if_pos hafter]
    have hbelow : t.totalVmas ≠ 0 →
        (t.spans (t.totalVmas - 1)).roundEnd < pgroundup addr ∧ mmapBase ≤ pgroundup addr := by
      intro hne
      have hplaced := h.live (t.totalVmas - 1) (by omega) (by omega)
      rw [endOf_eq hplaced (hlast hne)] at hafter
      have := hplaced.addr_lt
      have := hplaced.base_le
      exact ⟨hafter, by omega⟩
    have hbase : mmapBase ≤ pgroundup addr := by
      by_cases hzero : t.totalVmas = 0
      · rcases hempty hzero with hbase | hreject
        · exact hbase
        · rw [hzero] at hafter
          rw [show (0 : Int) - 1 = -1 from rfl] at hafter
          omega
      · exact (hbelow hzero).2
    apply setupMmapArr_placing (by omega) (by omega)
    · exact placed_of_roundEnd_lt ha hbase hsize
    · omega
    · exact (hexact hbase).1
    · intro _
      exact Int.le_of_lt (hbelow (by omega)).1
    · intro _
      omega
  · rw [if_neg hafter]
    by_cases hbase : mmapBase ≤ pgroundup addr
    · by_cases hzero : t.totalVmas = 0
      · rw [hzero]
        exact .inl ⟨rfl, rfl⟩
      · exact checkGaps_placing h ha hsize hmax (hexact hbase).2 hwrap (by omega) (by omega)
    · -- a hint below `MMAPBASE` stops at the first entry
      left
      cases hn : (t.totalVmas - 1).toNat with
      | zero => exact ⟨rfl, rfl⟩
      | succ n =>
        have hfirst := (h.live 0 (by omega) (by omega)).base_le
        rw [checkGaps, if_pos (by show _ ≤ (t.spans 0).addr; omega)]
        exact ⟨rfl, rfl⟩

/-- Where the loop of `find_mmap_addr` stops. -/
theorem findGap_spec (t : Table) (size : Int) (n : Nat) (i : Int) :
    i ≤ t.findGap size n i ∧ t.findGap size n i ≤ i + n ∧
      (∀ j, i ≤ j → j < t.findGap size n i → (t.vmas (j + 1)).addr ≠ 0 ∧ ¬ t.wide size j) ∧
      (t.findGap size n i < i + n →
        (t.vmas (t.findGap size n i + 1)).addr = 0 ∨ t.wide size (t.findGap size n i)) := by
  induction n generalizing i with
  | zero =>
    rw [findGap]
    exact ⟨Int.le_refl i, by omega, fun j h1 h2 => by omega, fun h => by omega⟩
  | succ n ih =>
    rw [findGap]
    by_cases hused : (t.vmas (i + 1)).addr ≠ 0
    · rw [if_pos hused]
      by_cases hwide : t.wide size i
      · rw [if_pos hwide]
        exact ⟨Int.le_refl i, by omega, fun j h1 h2 => by omega, fun _ => .inr hwide⟩
      · rw [if_neg hwide]
        obtain ⟨h1, h2, h3, h4⟩ := ih (i + 1)
        refine ⟨by omega, by omega, ?_, fun h => h4 (by omega)⟩
        intro j hj1 hj2
        by_cases hj : j = i
        · rw [hj]
          exact ⟨hused, hwide⟩
        · exact h3 j (by omega) hj2
    · rw [if_neg hused]
      exact ⟨Int.le_refl i, by omega, fun j h1 h2 => by omega,
        fun _ => .inl (not_not.mp hused)⟩

/-- A gap that begins at the end of a range is measured exactly if the next range lies behind
it, and is found to be huge otherwise. -/
theorem wide_iff {i : Int} (hthis : (t.spans i).Placed) (hsize : 0 < size) (hmax : size < 2 ^ 31)
    {next : Int} (hround : pgroundup (t.vmas (i + 1)).addr = next) (h0 : 0 ≤ next)
    (hhi : next < 2 ^ 31) :
    t.wide size i ↔ next < (t.spans i).roundEnd ∨ (t.spans i).roundEnd + size < next := by
  have hend := u32_endOf hthis
  have hbase := hthis.base_le
  have haddr := hthis.addr_lt
  have hle := hthis.end_le
  have hm : mmapBase = 0x60000000 := rfl
  have hk : kernBase = 0x80000000 := rfl
  unfold wide
  rw [hround, ← hend, u32_of_mem (by omega) (by omega)]
  rw [← hend] at haddr hle
  unfold u32 at *
  omega

/-- The slot behind the live entries, if the search goes past it: a range that lies behind the
last live one. -/
theorem placed_of_not_wide (h : t.Inv) (hroom : t.totalVmas < 32) (hn : 0 < t.totalVmas)
    (hsize : 0 < size) (hmax : size < 2 ^ 31)
    (hwide : ¬ t.wide size (t.totalVmas - 1)) :
    (t.spans t.totalVmas).Placed ∧
      (t.spans (t.totalVmas - 1)).roundEnd ≤ (t.spans t.totalVmas).addr := by
  have hlast := h.live (t.totalVmas - 1) (by omega) (by omega)
  have hm : mmapBase = 0x60000000 := rfl
  have hk : kernBase = 0x80000000 := rfl
  have hindex : t.totalVmas - 1 + 1 = t.totalVmas := by omega
  rcases h.slot t.totalVmas (by omega) (by omega) with hspare | hplaced
  · exfalso
    obtain ⟨h0, hle⟩ := hspare.pgroundup_addr
    apply hwide
    rw [wide_iff hlast hsize hmax (by rw [hindex]; rfl) h0 (by omega)]
    left
    have := hlast.addr_lt
    have := hlast.base_le
    omega
  · refine ⟨hplaced, ?_⟩
    have hbase := hplaced.base_le
    have hlt := hplaced.addr_lt_kernBase
    have hround : pgroundup (t.vmas (t.totalVmas - 1 + 1)).addr = (t.spans t.totalVmas).addr := by
      rw [hindex]
      exact hplaced.pgroundup_addr
    rw [wide_iff hlast hsize hmax hround (by omega) (by omega)] at hwide
    omega

/-- An entry `i` behind which `find_mmap_addr` puts a range: a live one with a gap behind it, or
the slot behind the live entries taken for one. -/
structure Gap (t : Table) (size i : Int) : Prop where
  nonneg : 0 ≤ i
  le : i ≤ t.totalVmas
  placed : (t.spans i).Placed
  behind : i = t.totalVmas →
    (t.spans (t.totalVmas - 1)).roundEnd ≤ (t.spans t.totalVmas).addr
  fits : i + 1 < t.totalVmas → (t.spans i).roundEnd + size < (t.spans (i + 1)).addr

/-- A search that stops in front of a live entry has found room for the range. -/
theorem fits_of_stop {i : Int} (hthis : (t.spans i).Placed) (hnext : (t.spans (i + 1)).Placed)
    (hsorted : (t.spans i).roundEnd ≤ (t.spans (i + 1)).addr) (hsize : 0 < size)
    (hmax : size < 2 ^ 31) (hstop : (t.vmas (i + 1)).addr = 0 ∨ t.wide size i) :
    (t.spans i).roundEnd + size < (t.spans (i + 1)).addr := by
  have hlow := hnext.base_le
  have hhigh := hnext.addr_lt_kernBase
  have hm : mmapBase = 0x60000000 := rfl
  have hk : kernBase = 0x80000000 := rfl
  have hwide : t.wide size i := by
    rcases hstop with hunused | hwide
    · have : (t.spans (i + 1)).addr = 0 := hunused
      omega
    · exact hwide
  rw [wide_iff hthis hsize hmax hnext.pgroundup_addr (by omega) (by omega)] at hwide
  omega

/-- The search of `find_mmap_addr` stops at a gap. -/
theorem findGap_gap (h : t.Inv) (hroom : t.totalVmas < 32) (hn : 0 < t.totalVmas)
    (hsize : 0 < size) (hmax : size < 2 ^ 31) :
    t.Gap size (t.findGap size t.totalVmas.toNat 0) := by
  obtain ⟨h1, h2, hpassed, hstop⟩ := t.findGap_spec size t.totalVmas.toNat 0
  generalize t.findGap size t.totalVmas.toNat 0 = i at h1 h2 hpassed hstop ⊢
  by_cases hi : i = t.totalVmas
  · subst hi
    obtain ⟨-, hwide⟩ := hpassed (t.totalVmas - 1) (by omega) (by omega)
    obtain ⟨hplaced, hbelow⟩ := placed_of_not_wide h hroom hn hsize hmax hwide
    exact ⟨h1, Int.le_refl _, hplaced, fun _ => hbelow, fun hlt => by omega⟩
  · have hplaced := h.live i h1 (by omega)
    refine ⟨h1, by omega, hplaced, fun hi' => absurd hi' hi, ?_⟩
    intro hlt
    exact fits_of_stop hplaced (h.live (i + 1) (by omega) hlt)
      (h.sorted i (i + 1) h1 (by omega) hlt) hsize hmax (hstop (by omega))

/-- Placing a range behind the entry that was found. -/
theorem Gap.placing {i : Int} (h : t.Inv) (hg : t.Gap size i) (hsize : 0 < size)
    (hend : (t.spans i).roundEnd + size ≤ kernBase) :
    t.Placing size (t.setupMmapArr size i (t.spans i).roundEnd) := by
  have hnonneg := h.nonneg
  have h0 := hg.nonneg
  have hle := hg.le
  have hlow := hg.placed.base_le
  have haddr := hg.placed.addr_lt
  have hm : mmapBase = 0x60000000 := rfl
  have hk : kernBase = 0x80000000 := rfl
  have hnew : (Span.mk (t.spans i).roundEnd size).roundEnd ≤ kernBase :=
    Span.roundEnd_le (by decide) hend
  have hnew' : (Span.mk (t.spans i).roundEnd size).roundEnd < kernBase →
      (Span.mk (t.spans i).roundEnd size).Placed :=
    placed_of_roundEnd_lt (dvd_alignUp _) (by omega) hsize
  by_cases hi : i = t.totalVmas
  · subst hi
    exact setupMmapArr_absorbing hg.placed (fun _ => hg.behind rfl) hnew' (by omega) (by omega)
      hnonneg
  · apply setupMmapArr_placing (by omega) (by omega) hnew'
    · omega
    · omega
    · intro _
      exact Int.le_refl _
    · intro hlt
      have hnext := h.live (i + 1) (by omega) hlt
      have hhigh := hnext.addr_lt_kernBase
      have hfits : (Span.mk (t.spans i).roundEnd size).roundEnd ≤ (t.spans (i + 1)).addr :=
        Span.roundEnd_le hnext.aligned (Int.le_of_lt (hg.fits hlt))
      exact ⟨hfits, by omega⟩

/-- The first mapping goes to `MMAPBASE`. -/
theorem set_placing (hzero : t.totalVmas = 0) (hplaced : (Span.mk mmapBase size).Placed) :
    t.Placing size (0, t.set 0 { t.vmas 0 with addr := mmapBase, len := size }) := by
  refine .inr ⟨Int.le_refl 0, mmapBase, .inserted (Int.le_refl 0) (by omega) rfl hplaced ?_ ?_ ?_ ?_⟩
  · intro h0
    omega
  · intro h0
    omega
  · intro j hj
    rw [spans_set]
    unfold insertAt
    by_cases hj0 : j = 0
    · subst hj0
      simp
    · rw [Function.update_of_ne hj0, if_pos (by omega)]
  · intro j hj
    rw [spans_set, Function.update_of_ne (by omega)]

/-- A mapping that fits before the first one goes to `MMAPBASE`, too. -/
theorem setupMmapArr_front_placing (h : t.Inv) (hn : 0 < t.totalVmas) (hsize : 0 < size)
    (hfits : mmapBase + size < (t.spans 0).addr) :
    t.Placing size (t.setupMmapArr size (-1) mmapBase) := by
  have hfirst := h.live 0 (by omega) hn
  have hhigh := hfirst.addr_lt_kernBase
  have hm : mmapBase = 0x60000000 := rfl
  have hk : kernBase = 0x80000000 := rfl
  have hend : (Span.mk mmapBase size).roundEnd ≤ (t.spans 0).addr :=
    Span.roundEnd_le hfirst.aligned (Int.le_of_lt hfits)
  apply setupMmapArr_placing (by omega) (by omega)
  · exact placed_of_roundEnd_lt (by decide) (Int.le_refl _) hsize
  · omega
  · omega
  · intro h0
    omega
  · intro _
    exact ⟨hend, by omega⟩

/-- `find_mmap_addr` places a range in the first gap, behind the last entry, or behind a slot
that it takes for an entry. -/
theorem findMmapAddr_placing (h : t.Inv) (hroom : t.totalVmas < 32) (hsize : 0 < size)
    (hmax : size < 2 ^ 31) : t.Placing size (t.findMmapAddr size) := by
  have hm : mmapBase = 0x60000000 := rfl
  have hk : kernBase = 0x80000000 := rfl
  have hnonneg := h.nonneg
  have hbase : pgsize ∣ mmapBase := by decide
  unfold findMmapAddr
  by_cases hzero : t.totalVmas = 0
  · rw [if_pos hzero]
    by_cases hhigh : kernBase ≤ u32 (pgroundup (i32 (mmapBase + size)))
    · rw [if_pos hhigh]
      exact .inl ⟨rfl, rfl⟩
    · rw [if_neg hhigh, show pgroundup mmapBase = mmapBase by decide]
      rw [u32_pgroundup_i32 (by omega) (alignUp_lt_of_int hbase (by omega) hmax)] at hhigh
      apply set_placing hzero
      apply placed_of_roundEnd_lt hbase (Int.le_refl _) hsize
      show alignUp pgsize (mmapBase + size) < kernBase
      omega
  · rw [if_neg hzero]
    have hfirst := h.live 0 (by omega) (by omega)
    have hlow := hfirst.base_le
    have hlt := hfirst.addr_lt_kernBase
    have haddr : (t.vmas 0).addr = (t.spans 0).addr := rfl
    rw [haddr, i32_of_mem (by omega) (by omega)]
    by_cases hfront : size < (t.spans 0).addr - mmapBase
    · rw [if_pos hfront]
      exact setupMmapArr_front_placing h (by omega) hsize (by omega)
    · rw [if_neg hfront]
      have hgap := findGap_gap h hroom (by omega) hsize hmax
      generalize t.findGap size t.totalVmas.toNat 0 = i at hgap
      have hpos := hgap.placed.base_le
      have hspan := hgap.placed.addr_lt
      have hle := hgap.placed.end_le
      simp only
      rw [u32_endOf hgap.placed, u32_of_mem (by omega) (by omega)]
      by_cases hhigh : kernBase < (t.spans i).roundEnd + size
      · rw [if_pos hhigh]
        exact .inl ⟨rfl, rfl⟩
      · rw [if_neg hhigh, i32_of_mem (by omega) (by omega)]
        exact hgap.placing h hsize (by omega)

/-- The checks that `ummap` makes before it looks for a place. -/
structure Reaches (t : Table) (addr length : Int) (flags : UInt32) : Prop where
  room : t.totalVmas < 32
  kind : has flags mapPrivate ∨ has flags mapShared
  below : u32 (pgroundup (i32 (pgroundup addr + length))) ≤ kernBase
  fixed : has flags mapFixed → addr ≠ 0 ∧ mmapBase ≤ addr

/-- What a call of `ummap` that passes the checks has to meet: a positive length; in an empty
table a hint above `MMAPBASE` or one that is rejected; otherwise a last mapping that ends below
`KERNBASE`, and a hint whose range does not end exactly at `KERNBASE`. -/
structure Placeable (t : Table) (addr length : Int) : Prop where
  positive : 0 < length
  hint : t.totalVmas = 0 → mmapBase ≤ pgroundup addr ∨ pgroundup addr ≤ t.endOf (-1)
  last : t.totalVmas ≠ 0 → (t.spans (t.totalVmas - 1)).roundEnd < kernBase
  wrap : 2 ≤ t.totalVmas → pgroundup addr + length ≠ kernBase

theorem chooseEntry_placing (h : t.Inv) {addr length : Int} {flags : UInt32}
    (hroom : t.totalVmas < 32) (hkind : has flags mapPrivate ∨ has flags mapShared)
    (hmax : length < 2 ^ 31)
    (hsafe : t.Reaches addr length flags → t.Placeable addr length) :
    t.Placing length (t.chooseEntry addr length flags) := by
  have hcheck (hend : u32 (pgroundup (i32 (pgroundup addr + length))) ≤ kernBase)
      (hp : t.Placeable addr length) : t.Placing length (t.checkMmapPossible addr length) :=
    checkMmapPossible_placing h hp.positive hmax hend hp.hint hp.last hp.wrap
  unfold chooseEntry
  simp only
  by_cases hfixed : has flags mapFixed = true
  · rw [if_pos hfixed]
    by_cases hlow : addr = 0 ∨ addr < mmapBase ∨
        kernBase < u32 (pgroundup (i32 (pgroundup addr + length)))
    · rw [if_pos hlow]
      exact .inl ⟨rfl, rfl⟩
    · rw [if_neg hlow]
      by_cases hround : kernBase < u32 (pgroundup (i32 (pgroundup addr + length))) ∨
          pgroundup (i32 (pgroundup addr + length)) % pgsize ≠ 0
      · rw [if_pos hround]
        exact .inl ⟨rfl, rfl⟩
      · rw [if_neg hround]
        push Not at hlow
        exact hcheck hlow.2.2 (hsafe ⟨hroom, hkind, hlow.2.2, fun _ => ⟨hlow.1, hlow.2.1⟩⟩)
  · rw [if_neg hfixed]
    by_cases hhigh : kernBase < u32 (pgroundup (i32 (pgroundup addr + length)))
    · rw [if_pos hhigh]
      exact .inl ⟨rfl, rfl⟩
    · rw [if_neg hhigh]
      push Not at hhigh
      have hp := hsafe ⟨hroom, hkind, hhigh, fun hf => absurd hf hfixed⟩
      have hplacing := hcheck hhigh hp
      by_cases hfound : (t.checkMmapPossible addr length).1 ≠ -1
      · rw [if_pos hfound]
        exact hplacing
      · rw [if_neg hfound]
        rcases hplacing with ⟨-, hsame⟩ | ⟨hpos, -⟩
        · rw [hsame]
          exact findMmapAddr_placing h hroom hp.positive hmax
        · omega

/-- `ummap` keeps the table in order. -/
theorem Inv.ummap (h : t.Inv) {addr length : Int} {prot flags : UInt32} {offset : Int}
    {file : UInt32} (hmax : length < 2 ^ 31)
    (hsafe : t.Reaches addr length flags → t.Placeable addr length) :
    (t.ummap addr length prot flags offset file).2.Inv := by
  unfold Table.ummap
  by_cases hfull : 32 ≤ t.totalVmas
  · rw [if_pos hfull]
    exact h
  · rw [if_neg hfull]
    by_cases hkind : ¬ has flags mapPrivate ∧ ¬ has flags mapShared
    · rw [if_pos hkind]
      exact h
    · rw [if_neg hkind]
      simp only
      have hplacing := chooseEntry_placing h (by omega) (by tauto) hmax hsafe
      rcases hplacing with ⟨hfail, hsame⟩ | ⟨hpos, a, hplaced⟩
      · rw [if_pos hfail, hsame]
        exact h
      · rw [if_neg (by omega)]
        -- the fields that are filled in do not move the entry
        have hspans : ((t.chooseEntry addr length flags).2.fillEntry
            (t.chooseEntry addr length flags).1 prot flags offset file).2.spans =
              (t.chooseEntry addr length flags).2.spans := by
          show (Table.set _ _ _).spans = _
          rw [spans_set]
          exact Function.update_eq_self _ _
        have hok := hplaced.spansOk h (by omega)
        rw [← hspans] at hok
        exact hok

end Table

end Cs537.P5
