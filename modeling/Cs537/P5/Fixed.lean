import Cs537.P5.LiveFiles

/-!
# Where `MAP_FIXED` puts a mapping

`ummap` with `MAP_FIXED` rounds the address up and asks `check_mmap_possible` for an entry there.
The comparisons of that function are strict, it never looks below the first mapping, and the end of
the last mapping is compared as an `int`, so that a mapping that ends at `KERNBASE` seems to end
below everything. `fixed_exact_iff` says for which requests the outcome is the one that `MAP_FIXED`
promises all the same.
-/

namespace Cs537.P5

open Cs537.Lib

namespace Table

variable {t : Table} {addr length : Int} {prot flags : UInt32} {offset : Int} {file : UInt32}

/-! ## Tables in order -/

theorem InOrder.placed (h : t.InOrder) {i : Int} (h0 : 0 ≤ i) (hi : i < t.totalVmas) :
    (t.spans i).Placed := by
  obtain ⟨haligned, hlen, hbase, hend⟩ := h.entry i h0 hi
  exact ⟨haligned, hlen, hbase, hend⟩

theorem InOrder.sorted (h : t.InOrder) :
    Separated Span.addr Span.roundEnd t.spans t.totalVmas := by
  intro i j h0 hij hj
  have hlt := h.increasing i j h0 hij hj
  have hj' := (h.placed (by omega) hj).addr_lt
  by_contra hover
  exact h.disjoint i j h0 (by omega) (by omega) hj (by omega) (t.spans j).addr (Int.le_of_lt hlt)
    (by show _ < (t.spans i).roundEnd; omega) ⟨Int.le_refl _, hj'⟩

theorem InOrder.roundEnd_le (h : t.InOrder) {i j : Int} (h0 : 0 ≤ i) (hij : i ≤ j)
    (hj : j < t.totalVmas) : (t.spans i).roundEnd ≤ (t.spans j).roundEnd := by
  rcases Int.lt_or_eq_of_le hij with hlt | rfl
  · have := h.sorted i j h0 hlt hj
    have := (h.placed (i := j) (by omega) hj).addr_lt
    omega
  · exact Int.le_refl _

theorem InOrder.addr_le (h : t.InOrder) {i j : Int} (h0 : 0 ≤ i) (hij : i ≤ j)
    (hj : j < t.totalVmas) : (t.spans i).addr ≤ (t.spans j).addr := by
  rcases Int.lt_or_eq_of_le hij with hlt | rfl
  · exact Int.le_of_lt (h.increasing i j h0 hlt hj)
  · exact Int.le_refl _

/-! ## The request and the answer -/

/-- What `MAP_FIXED` asks for: a page-aligned range in the part for mappings that no live mapping
overlaps. -/
structure Free (t : Table) (addr length : Int) : Prop where
  aligned : pgsize ∣ addr
  base_le : mmapBase ≤ addr
  end_le : (Span.mk addr length).roundEnd ≤ kernBase
  disjoint : ∀ i, 0 ≤ i → i < t.totalVmas → ∀ x, addr ≤ x → x < (Span.mk addr length).roundEnd →
    ¬ ((t.spans i).addr ≤ x ∧ x < (t.spans i).roundEnd)

/-- The range ends below `KERNBASE`, lies above the first mapping and touches none. -/
structure Apart (t : Table) (addr length : Int) : Prop where
  end_lt : (Span.mk addr length).roundEnd < kernBase
  first : (t.spans 0).roundEnd < addr
  below : ∀ i, 0 ≤ i → i < t.totalVmas → (t.spans i).roundEnd ≠ addr
  above : ∀ i, 0 ≤ i → i < t.totalVmas → (t.spans i).addr ≠ addr + length

/-- The last mapping ends below `KERNBASE`. -/
def EndsBelow (t : Table) : Prop := (t.spans (t.totalVmas - 1)).roundEnd < kernBase

instance (t : Table) : Decidable t.EndsBelow := inferInstanceAs (Decidable (_ < _))

/-- The request is granted exactly when the range is free, and at this address. -/
def FixedExact (t : Table) (addr length : Int) (prot flags : UInt32) (offset : Int)
    (file : UInt32) : Prop :=
  ((t.ummap addr length prot flags offset file).1 ≠ -1 ↔ t.Free addr length) ∧
    ((t.ummap addr length prot flags offset file).1 ≠ -1 →
      (t.ummap addr length prot flags offset file).1 = addr)

/-- The requests for which the outcome is right. If the last mapping ends below `KERNBASE`: at an
aligned address the range, if free, is apart from all mappings; at any other one the range from the
next page on is not. If it ends at `KERNBASE`, every range above `MMAPBASE` that ends below it is
granted: then it has to be free, and the address aligned. -/
structure FixedOk (t : Table) (addr length : Int) : Prop where
  aligned : pgsize ∣ addr → t.EndsBelow → t.Free addr length → t.Apart addr length
  unaligned : ¬ pgsize ∣ addr → mmapBase ≤ addr → t.EndsBelow →
    t.Free (alignUp pgsize addr) length → ¬ t.Apart (alignUp pgsize addr) length
  full : mmapBase ≤ addr → (Span.mk (alignUp pgsize addr) length).roundEnd < kernBase →
    ¬ t.EndsBelow → t.Free addr length

/-! ## What the search accepts -/

/-- What `check_mmap_possible` accepts: a range behind the last mapping, or one in a gap between
two, with room on both sides. -/
def Accepts (t : Table) (a size : Int) : Prop :=
  (Span.mk a size).roundEnd < kernBase ∧
    (¬ t.EndsBelow ∨ (t.spans (t.totalVmas - 1)).roundEnd < a ∨
      ∃ i, 0 ≤ i ∧ i < t.totalVmas - 1 ∧ (t.spans i).roundEnd < a ∧
        a + size < (t.spans (i + 1)).addr)

theorem gapIndex_isSome {a size : Int} {n : Nat} {i : Int} :
    (t.gapIndex a size n i).isSome = true ↔
      ∃ j, i ≤ j ∧ j < i + n ∧ (∀ l, i ≤ l → l ≤ j → (t.vmas l).addr < a) ∧
        t.endOf j < a ∧ i32 (a + size) < pgroundup (t.vmas (j + 1)).addr := by
  induction n generalizing i with
  | zero =>
    constructor
    · intro h
      cases h
    · rintro ⟨j, h1, h2, -⟩
      omega
  | succ n ih =>
    rw [gapIndex]
    by_cases hpast : a ≤ (t.vmas i).addr
    · rw [if_pos hpast]
      constructor
      · intro h
        cases h
      · rintro ⟨j, h1, -, hbelow, -⟩
        have := hbelow i (Int.le_refl i) h1
        omega
    · rw [if_neg hpast]
      by_cases hgap : t.endOf i < a ∧ i32 (a + size) < pgroundup (t.vmas (i + 1)).addr
      · rw [if_pos hgap]
        refine ⟨fun _ => ⟨i, Int.le_refl i, by omega, ?_, hgap⟩, fun _ => rfl⟩
        intro l h1 h2
        obtain rfl : l = i := by omega
        omega
      · rw [if_neg hgap, ih]
        constructor
        · rintro ⟨j, h1, h2, hbelow, hj⟩
          refine ⟨j, by omega, by omega, ?_, hj⟩
          intro l hl1 hl2
          by_cases hl : l = i
          · rw [hl]
            omega
          · exact hbelow l (by omega) hl2
        · rintro ⟨j, h1, h2, hbelow, hj⟩
          have hne : j ≠ i := by
            rintro rfl
            exact hgap hj
          exact ⟨j, by omega, by omega, fun l hl1 hl2 => hbelow l (by omega) hl2, hj⟩

/-- `ummap` with `MAP_FIXED` in terms of the search. -/
theorem ummap_fixed (addr length : Int) (prot : UInt32) (offset : Int) (file : UInt32)
    (h0 : 0 ≤ t.totalVmas) (hroom : t.totalVmas < 32)
    (hkind : has flags mapPrivate ∨ has flags mapShared) (hfixed : has flags mapFixed = true) :
    ((t.ummap addr length prot flags offset file).1 ≠ -1 ↔ mmapBase ≤ addr ∧
        u32 (pgroundup (i32 (pgroundup addr + length))) ≤ kernBase ∧ t.TakesHint addr length) ∧
      ((t.ummap addr length prot flags offset file).1 ≠ -1 →
        (t.ummap addr length prot flags offset file).1 = pgroundup addr) := by
  have hm : mmapBase = 0x60000000 := rfl
  unfold ummap chooseEntry
  simp only
  rw [if_neg (by omega), if_neg (by tauto), if_pos hfixed]
  by_cases hlow : addr = 0 ∨ addr < mmapBase ∨
      kernBase < u32 (pgroundup (i32 (pgroundup addr + length)))
  · rw [if_pos hlow, if_pos rfl]
    refine ⟨⟨fun h => absurd rfl h, ?_⟩, fun h => absurd rfl h⟩
    rintro ⟨hbase, hend, -⟩
    omega
  · have haligned := Int.emod_eq_zero_of_dvd (dvd_pgroundup (i32 (pgroundup addr + length)))
    have hpage : ¬ (kernBase < u32 (pgroundup (i32 (pgroundup addr + length))) ∨
        pgroundup (i32 (pgroundup addr + length)) % pgsize ≠ 0) := by omega
    rw [if_neg hlow, if_neg hpage, checkMmapPossible_eq]
    cases hindex : t.checkIndex addr length with
    | none =>
      rw [if_pos rfl]
      refine ⟨⟨fun h => absurd rfl h, ?_⟩, fun h => absurd rfl h⟩
      rintro ⟨-, -, hsome, -⟩
      rw [hindex] at hsome
      cases hsome
    | some i =>
      obtain ⟨hi, -⟩ := checkIndex_mem h0 hindex
      by_cases hfits : Fits length (pgroundup addr)
      · have hresult := (setupMmapArr_fits (t := t) (i := i) hfits).1
        have hspan := (setupMmapArr_of_lt (t := t) (i := i) hfits).2.2 (i + 1)
        rw [if_pos rfl] at hspan
        have haddr : ((t.setupMmapArr length i (pgroundup addr)).2.vmas (i + 1)).addr =
            pgroundup addr := congrArg Span.addr hspan
        have hmem : pgroundup addr ≠ -1 := by
          have := dvd_pgroundup addr
          unfold pgsize at this
          omega
        simp only
        rw [hresult, if_neg (by omega)]
        simp only [fillEntry, set, Function.update_self, haddr]
        exact ⟨⟨fun _ => ⟨by omega, by omega, by rw [hindex]; rfl, hfits⟩, fun _ => hmem⟩,
          fun _ => trivial⟩
      · have hfail : (t.setupMmapArr length i (pgroundup addr)).1 = -1 := by
          unfold Fits at hfits
          rw [setupMmapArr_of_ge (by omega)]
        simp only
        rw [if_pos hfail]
        exact ⟨⟨fun h => absurd rfl h, fun h => absurd h.2.2.2 hfits⟩, fun h => absurd rfl h⟩

theorem endOf_last (h : t.InOrder) (hn : 0 < t.totalVmas) {a : Int} (ha : 0 ≤ a) :
    t.endOf (t.totalVmas - 1) < a ↔
      ¬ t.EndsBelow ∨ (t.spans (t.totalVmas - 1)).roundEnd < a := by
  have hlast := h.placed (i := t.totalVmas - 1) (by omega) (by omega)
  by_cases hbelow : t.EndsBelow
  · rw [endOf_eq hlast hbelow]
    exact ⟨.inr, fun hor => hor.resolve_left (not_not.mpr hbelow)⟩
  · -- the end is `KERNBASE`, which is negative as an `int`
    have hend : (t.spans (t.totalVmas - 1)).roundEnd = kernBase := by
      have := hlast.end_le
      unfold EndsBelow at hbelow
      omega
    have hneg : t.endOf (t.totalVmas - 1) = i32 (t.spans (t.totalVmas - 1)).roundEnd := by
      show pgroundup (i32 ((t.spans (t.totalVmas - 1)).addr + (t.spans (t.totalVmas - 1)).len)) = _
      exact pgroundup_i32 _
    rw [hneg, hend]
    refine ⟨fun _ => .inl hbelow, fun _ => ?_⟩
    have : i32 kernBase = -2 ^ 31 := by decide
    omega

/-- The gaps that the search takes in a table that is in order. -/
theorem gap_iff (h : t.InOrder) (hn : 0 < t.totalVmas) {a size : Int} (hlo : -2 ^ 31 ≤ a + size)
    (hhi : a + size < 2 ^ 31) :
    (t.gapIndex a size (t.totalVmas - 1).toNat 0).isSome = true ↔
      ∃ i, 0 ≤ i ∧ i < t.totalVmas - 1 ∧ (t.spans i).roundEnd < a ∧
        a + size < (t.spans (i + 1)).addr := by
  rw [gapIndex_isSome]
  refine exists_congr fun j => and_congr_right fun h1 => ?_
  rw [show j < 0 + ((t.totalVmas - 1).toNat : Int) ↔ j < t.totalVmas - 1 by omega]
  refine and_congr_right fun h2 => ?_
  have hthis := h.placed h1 (by omega)
  have hnext := h.placed (i := j + 1) (by omega) (by omega)
  have hsorted := h.sorted j (j + 1) h1 (by omega) (by omega)
  have hkern := hnext.addr_lt_kernBase
  have hnext' : pgroundup (t.vmas (j + 1)).addr = (t.spans (j + 1)).addr := hnext.pgroundup_addr
  rw [endOf_eq hthis (by omega), hnext', i32_of_mem hlo hhi]
  refine and_iff_right_of_imp fun hroom => ?_
  intro l hl1 hl2
  have : (t.spans l).addr ≤ (t.spans j).addr := h.addr_le hl1 hl2 (by omega)
  have := hthis.addr_lt
  show (t.spans l).addr < a
  omega

/-- What the search accepts in a table that is in order. -/
theorem takesHint_iff (h : t.InOrder) (hn : 0 < t.totalVmas) (hpos : 0 < length)
    (hmax : length < 2 ^ 31) (hbase : mmapBase ≤ addr) (haddr : addr < 2 ^ 31) :
    u32 (pgroundup (i32 (pgroundup addr + length))) ≤ kernBase ∧ t.TakesHint addr length ↔
      t.Accepts (alignUp pgsize addr) length := by
  have hm : mmapBase = 0x60000000 := rfl
  have hk : kernBase = 0x80000000 := rfl
  have hp : pgsize = 4096 := rfl
  have hup := le_alignUp Span.pgsize_pos addr
  have hdvd := dvd_alignUp (k := pgsize) addr
  have hle : alignUp pgsize addr ≤ 2 ^ 31 := alignUp_le Span.pgsize_pos _ (by decide) (by omega)
  have hround := (Span.mk (alignUp pgsize addr) length).le_roundEnd
  simp only at hround
  unfold TakesHint Accepts checkIndex Fits
  by_cases htop : alignUp pgsize addr = 2 ^ 31
  · -- the rounded address is negative as an `int`
    have hneg : pgroundup addr = -2 ^ 31 := by
      unfold pgroundup
      rw [htop]
      decide
    constructor
    · rintro ⟨-, hsome, -⟩
      have hlast := (endOf_mem t (t.totalVmas - 1)).1
      have hfirst := (h.placed (Int.le_refl 0) hn).base_le
      rw [hneg, if_neg (by omega), gapIndex_isSome] at hsome
      obtain ⟨j, h1, -, hbelow, -⟩ := hsome
      have : (t.spans 0).addr < -2 ^ 31 := hbelow 0 (Int.le_refl 0) h1
      omega
    · rintro ⟨hend, -⟩
      omega
  · have hexact : pgroundup addr = alignUp pgsize addr := i32_of_mem (by omega) (by omega)
    have hlt := alignUp_lt_of_int hdvd (by omega) hmax
    have hfits : u32 (pgroundup (i32 (alignUp pgsize addr + length))) =
        (Span.mk (alignUp pgsize addr) length).roundEnd := u32_pgroundup_i32 (by omega) hlt
    rw [hexact, hfits]
    generalize alignUp pgsize addr = a at *
    rw [if_congr (endOf_last h hn (by omega : 0 ≤ a)) rfl rfl]
    constructor
    · rintro ⟨-, hsome, hend⟩
      refine ⟨hend, ?_⟩
      by_cases hafter : ¬ t.EndsBelow ∨ (t.spans (t.totalVmas - 1)).roundEnd < a
      · tauto
      · rw [if_neg hafter, gap_iff h hn (by omega) (by omega)] at hsome
        exact .inr (.inr hsome)
    · rintro ⟨hend, hwhere⟩
      refine ⟨by omega, ?_, hend⟩
      by_cases hafter : ¬ t.EndsBelow ∨ (t.spans (t.totalVmas - 1)).roundEnd < a
      · rw [if_pos hafter]
        rfl
      · rw [if_neg hafter, gap_iff h hn (by omega) (by omega)]
        rw [not_or] at hafter
        exact (hwhere.resolve_left hafter.1).resolve_left hafter.2

/-- The last index at which a sequence is below a bound that it reaches. -/
theorem exists_crossing {f : Int → Int} {n a : Int} (hn : 0 ≤ n) (hfirst : f 0 < a)
    (hlast : a ≤ f n) : ∃ i, 0 ≤ i ∧ i < n ∧ f i < a ∧ a ≤ f (i + 1) := by
  obtain ⟨n, rfl⟩ := Int.eq_ofNat_of_zero_le hn
  induction n with
  | zero => exact absurd hlast (by simpa using hfirst)
  | succ n ih =>
    by_cases hn' : a ≤ f n
    · obtain ⟨i, h1, h2, h3⟩ := ih (by omega) hn'
      exact ⟨i, h1, by omega, h3⟩
    · exact ⟨n, by omega, by omega, by omega, hlast⟩

/-- A range between the first `p` mappings and the others, with room on both sides. -/
structure Between (t : Table) (addr length p : Int) : Prop where
  pos : 0 < p
  low : ∀ j, 0 ≤ j → j < p → (t.spans j).roundEnd < addr
  high : ∀ j, p ≤ j → j < t.totalVmas → addr + length < (t.spans j).addr

theorem Accepts.between (haccepts : t.Accepts addr length) (h : t.InOrder) (hn : 0 < t.totalVmas)
    (hbelow : t.EndsBelow) : ∃ p, t.Between addr length p := by
  rcases haccepts.2.resolve_left (not_not.mpr hbelow) with hafter | ⟨i, h1, h2, h3, h4⟩
  · refine ⟨t.totalVmas, hn, ?_, fun j hj hlt => absurd hlt (by omega)⟩
    intro j h0 hj
    have := h.roundEnd_le h0 (show j ≤ t.totalVmas - 1 by omega) (by omega)
    omega
  · refine ⟨i + 1, by omega, ?_, ?_⟩
    · intro j h0 hj
      have := h.roundEnd_le h0 (show j ≤ i by omega) (by omega)
      omega
    · intro j hj hlt
      have := h.addr_le (i := i + 1) (by omega) hj hlt
      omega

/-- The range before, between or behind the mappings that a free range lies in. -/
theorem Free.accepts_iff (hfree : t.Free addr length) (h : t.InOrder) (hn : 0 < t.totalVmas)
    (hpos : 0 < length) (hbelow : t.EndsBelow) : t.Accepts addr length ↔ t.Apart addr length := by
  have hround := (Span.mk addr length).le_roundEnd
  simp only at hround
  -- a mapping that does not overlap lies on one side
  have hside {i : Int} (h0 : 0 ≤ i) (hi : i < t.totalVmas) :
      (t.spans i).roundEnd ≤ addr ∨ (Span.mk addr length).roundEnd ≤ (t.spans i).addr := by
    have hplaced := (h.placed h0 hi).addr_lt
    by_contra hover
    have hmiss := hfree.disjoint i h0 hi (max addr (t.spans i).addr) (by omega) (by omega)
    omega
  constructor
  · intro haccepts
    obtain ⟨p, hp⟩ := haccepts.between h hn hbelow
    refine ⟨haccepts.1, hp.low 0 (Int.le_refl 0) hp.pos, ?_, ?_⟩
    · intro j h0 hj
      rcases Int.lt_or_le j p with hjp | hjp
      · have := hp.low j h0 hjp
        omega
      · have := hp.high j hjp hj
        have := (h.placed h0 hj).addr_lt
        omega
    · intro j h0 hj
      rcases Int.lt_or_le j p with hjp | hjp
      · have := hp.low j h0 hjp
        have := (h.placed h0 hj).addr_lt
        omega
      · have := hp.high j hjp hj
        omega
  · rintro ⟨hend, hfirst, hbelow', habove⟩
    refine ⟨hend, .inr ?_⟩
    by_cases hafter : (t.spans (t.totalVmas - 1)).roundEnd < addr
    · exact .inl hafter
    · right
      obtain ⟨i, h1, h2, h3, h4⟩ := exists_crossing (f := fun i => (t.spans i).roundEnd)
        (show (0 : Int) ≤ t.totalVmas - 1 by omega) hfirst (by omega)
      have hne := hbelow' (i + 1) (by omega) (by omega)
      have hne' := habove (i + 1) (by omega) (by omega)
      rcases hside (i := i + 1) (by omega) (by omega) with hside | hside
      · omega
      · exact ⟨i, h1, by omega, h3, by omega⟩

/-- What is accepted behind mappings that end below `KERNBASE` is free. -/
theorem Accepts.free (haccepts : t.Accepts addr length) (h : t.InOrder) (hn : 0 < t.totalVmas)
    (hbelow : t.EndsBelow) (haligned : pgsize ∣ addr) : t.Free addr length := by
  obtain ⟨p, hp⟩ := haccepts.between h hn hbelow
  have hlow := hp.low 0 (Int.le_refl 0) hp.pos
  have hbase := (h.placed (Int.le_refl 0) hn).base_le
  have hlt := (h.placed (Int.le_refl 0) hn).addr_lt
  refine ⟨haligned, by omega, Int.le_of_lt haccepts.1, ?_⟩
  rintro j h0 hj x hx1 hx2 ⟨hx3, hx4⟩
  rcases Int.lt_or_le j p with hjp | hjp
  · have := hp.low j h0 hjp
    omega
  · have hfits : (Span.mk addr length).roundEnd ≤ (t.spans j).addr :=
      Span.roundEnd_le (h.placed h0 hj).aligned (Int.le_of_lt (hp.high j hjp hj))
    omega

/-- In a table whose last mapping ends below `KERNBASE`, what is accepted is a free range that is
apart from the mappings. -/
theorem accepts_iff (h : t.InOrder) (hn : 0 < t.totalVmas) (hpos : 0 < length)
    (hbelow : t.EndsBelow) (haligned : pgsize ∣ addr) :
    t.Accepts addr length ↔ t.Free addr length ∧ t.Apart addr length := by
  constructor
  · intro haccepts
    have hfree := haccepts.free h hn hbelow haligned
    exact ⟨hfree, (hfree.accepts_iff h hn hpos hbelow).mp haccepts⟩
  · rintro ⟨hfree, hapart⟩
    exact (hfree.accepts_iff h hn hpos hbelow).mpr hapart

/-- In a table that is in order, `ummap` with `MAP_FIXED` does what it promises exactly for the
requests that `FixedOk` describes. -/
theorem fixed_exact_iff (h : t.InOrder) (hn : 1 ≤ t.totalVmas) (hroom : t.totalVmas < 32)
    (hlo : -2 ^ 31 ≤ addr) (hhi : addr < 2 ^ 31) (hpos : 0 < length) (hmax : length < 2 ^ 31)
    (hkind : has flags mapPrivate ∨ has flags mapShared) (hfixed : has flags mapFixed = true) :
    t.FixedExact addr length prot flags offset file ↔ t.FixedOk addr length := by
  have hk : kernBase = 0x80000000 := rfl
  obtain ⟨hgranted, hplace⟩ := ummap_fixed addr length prot offset file h.total_nonneg
    hroom hkind hfixed
  have haccepts : (t.ummap addr length prot flags offset file).1 ≠ -1 ↔
      mmapBase ≤ addr ∧ t.Accepts (alignUp pgsize addr) length := by
    rw [hgranted]
    refine and_congr_right fun hbase => ?_
    exact takesHint_iff h (by omega) hpos hmax hbase hhi
  unfold FixedExact
  rw [haccepts] at hplace ⊢
  by_cases haligned : pgsize ∣ addr
  · have hself : alignUp pgsize addr = addr := alignUp_of_dvd Span.pgsize_pos _ haligned
    have hplace' : mmapBase ≤ addr ∧ t.Accepts (alignUp pgsize addr) length →
        (t.ummap addr length prot flags offset file).1 = addr := by
      intro hsome
      rw [hplace hsome, pgroundup, hself, i32_of_mem hlo hhi]
    rw [and_iff_left hplace', hself]
    by_cases hbelow : t.EndsBelow
    · rw [accepts_iff h (by omega) hpos hbelow haligned]
      constructor
      · intro hexact
        refine ⟨fun _ _ hfree => (hexact.mpr hfree).2.2, fun hne => absurd haligned hne, ?_⟩
        exact fun _ _ hnot => absurd hbelow hnot
      · intro hok
        refine ⟨fun hacc => hacc.2.1, fun hfree => ?_⟩
        exact ⟨hfree.base_le, hfree, hok.aligned haligned hbelow hfree⟩
    · have hacc : t.Accepts addr length ↔ (Span.mk addr length).roundEnd < kernBase :=
        ⟨fun hacc => hacc.1, fun hend => ⟨hend, .inl hbelow⟩⟩
      rw [hacc]
      constructor
      · intro hexact
        refine ⟨fun _ hb => absurd hb hbelow, fun hne => absurd haligned hne, ?_⟩
        rw [hself]
        exact fun hbase hend _ => hexact.mp ⟨hbase, hend⟩
      · intro hok
        refine ⟨fun hacc => hok.full hacc.1 (by rw [hself]; exact hacc.2) hbelow, fun hfree => ?_⟩
        refine ⟨hfree.base_le, ?_⟩
        -- a free range lies below the last mapping, which reaches up to `KERNBASE`
        have hlast := h.placed (i := t.totalVmas - 1) (by omega) (by omega)
        have hend := hfree.end_le
        have hround := (Span.mk addr length).le_roundEnd
        simp only at hround
        by_contra hnot
        unfold EndsBelow at hbelow
        have haddr := hlast.addr_lt_kernBase
        have hmiss := hfree.disjoint (t.totalVmas - 1) (by omega) (by omega)
          (max addr (t.spans (t.totalVmas - 1)).addr) (by omega) (by omega)
        omega
  · have hnotfree : ¬ t.Free addr length := fun hfree => haligned hfree.aligned
    constructor
    · rintro ⟨hexact, -⟩
      have hrefused : ¬ (mmapBase ≤ addr ∧ t.Accepts (alignUp pgsize addr) length) :=
        fun hacc => hnotfree (hexact.mp hacc)
      refine ⟨fun ha => absurd ha haligned, ?_, ?_⟩
      · intro _ hbase hbelow hfree hapart
        exact hrefused ⟨hbase, (accepts_iff h (by omega) hpos hbelow (dvd_alignUp _)).mpr
          ⟨hfree, hapart⟩⟩
      · intro hbase hend hbelow
        exact absurd ⟨hbase, hend, .inl hbelow⟩ hrefused
    · intro hok
      have hrefused : ¬ (mmapBase ≤ addr ∧ t.Accepts (alignUp pgsize addr) length) := by
        rintro ⟨hbase, hacc⟩
        by_cases hbelow : t.EndsBelow
        · obtain ⟨hfree, hapart⟩ :=
            (accepts_iff h (by omega) hpos hbelow (dvd_alignUp _)).mp hacc
          exact hok.unaligned haligned hbase hbelow hfree hapart
        · exact hnotfree (hok.full hbase hacc.1 hbelow)
      exact ⟨⟨fun hacc => absurd hacc hrefused, fun hfree => absurd hfree hnotfree⟩,
        fun hacc => absurd hacc hrefused⟩

/-- A process that has mapped one page, at `MMAPBASE`. -/
def onePage : Table := freshTable.next mapPage

theorem onePage_total : onePage.totalVmas = 1 := by decide +kernel

theorem onePage_span : onePage.spans 0 = ⟨mmapBase, 4096⟩ := by decide +kernel

theorem onePage_inOrder : onePage.InOrder := by
  refine (freshTable_empty.inv.next (c := mapPage) ?_).inOrder
  intro _
  exact ⟨by decide, fun _ => .inr (by decide), fun h => absurd rfl h,
    fun h => absurd h (by decide)⟩

/-- The theorem at a request that leaves a page free behind that mapping. -/
theorem fixed_exact_iff_two_above :
    onePage.FixedExact (mmapBase + 8192) 4096 0 (mapPrivate ||| mapFixed) 0 0 := by
  have hfirst {i : Int} (h0 : 0 ≤ i) (hi : i < onePage.totalVmas) : i = 0 := by
    rw [onePage_total] at hi
    omega
  refine (fixed_exact_iff onePage_inOrder (by rw [onePage_total]) (by rw [onePage_total]; decide)
    (by decide) (by decide) (by decide) (by decide) (.inl (by decide)) (by decide)).mpr ?_
  refine ⟨fun _ _ _ => ?_, fun h => absurd (by decide) h, fun _ _ h => absurd ?_ h⟩
  · refine ⟨by decide, by rw [onePage_span]; decide, ?_, ?_⟩
    · intro i h0 hi
      rw [hfirst h0 hi, onePage_span]
      decide
    · intro i h0 hi
      rw [hfirst h0 hi, onePage_span]
      decide
  · unfold EndsBelow
    rw [onePage_total, show (1 : Int) - 1 = 0 from rfl, onePage_span]
    decide

/-- The page right behind the mapping is free, but it is not granted. -/
theorem fixed_refuses_next_page :
    ¬ ∀ (t : Table) (addr length : Int) (prot flags : UInt32) (offset : Int) (file : UInt32),
      t.InOrder → 1 ≤ t.totalVmas → t.totalVmas < 32 → -2 ^ 31 ≤ addr → addr < 2 ^ 31 →
      0 < length → length < 2 ^ 31 → (has flags mapPrivate ∨ has flags mapShared) →
      has flags mapFixed = true → t.FixedExact addr length prot flags offset file := by
  intro hall
  have hexact := hall onePage (mmapBase + 4096) 4096 0 (mapPrivate ||| mapFixed) 0 0
    onePage_inOrder (by rw [onePage_total]) (by rw [onePage_total]; decide) (by decide) (by decide)
    (by decide) (by decide) (.inl (by decide)) (by decide)
  have hrefused : (onePage.ummap (mmapBase + 4096) 4096 0 (mapPrivate ||| mapFixed) 0 0).1 = -1 := by
    decide +kernel
  refine hexact.1.mpr ⟨by decide, by decide, by decide, ?_⟩ hrefused
  rintro i h0 hi x hx - ⟨-, hx'⟩
  obtain rfl : i = 0 := by
    rw [onePage_total] at hi
    omega
  rw [onePage_span] at hx'
  have : (Span.mk mmapBase 4096).roundEnd = mmapBase + 4096 := by decide
  omega

-- an address that is not aligned is rounded up
example : (onePage.ummap (mmapBase + 8191) 4096 0 (mapPrivate ||| mapFixed) 0 0).1 =
    mmapBase + 8192 := by decide +kernel

-- nothing is granted below the first mapping
example : ((freshTable.next (.ummap (mmapBase + 8192) 4096 0 mapPrivate 0 0)).ummap mmapBase 4096 0
    (mapPrivate ||| mapFixed) 0 0).1 = -1 := by decide +kernel

end Table

end Cs537.P5
