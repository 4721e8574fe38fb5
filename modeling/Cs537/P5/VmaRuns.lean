import Cs537.Lib.Run
import Cs537.P5.Placing

/-!
# The table of mappings stays in order

Starting from an empty table, every sequence of `ummap`, `umunmap` and `pgft_handler` calls
leaves the live entries page-aligned, inside the user part above `MMAPBASE`, in ascending
order and disjoint, as long as no call runs into one of the cases that `Safe` leaves out:
lengths that are not positive, hints that are taken below `MMAPBASE` or end exactly at
`KERNBASE`, removing an entry of an empty table, and growing into the next mapping.
-/

namespace Cs537.P5

open Cs537.Lib

namespace Table

variable {t : Table}

/-! ## Removing a mapping -/

/-- Clearing entry `i` and moving the slots behind it down. -/
theorem Inv.shiftDown (h : t.Inv) (hn : 0 < t.totalVmas) {i : Int} (h0 : 0 ≤ i) (hi : i < 32) :
    Inv { vmas := Lib.shiftDown copyMmapStruct (fun x => x.addr ≠ 0)
            (t.set i (zeroMmapRegionStruct (t.vmas i))).vmas (32 - i).toNat i
          totalVmas := t.totalVmas - 1 } := by
  obtain ⟨m, hle, hmax, -, hstop, hf⟩ := shiftDown_spec copyMmapStruct (fun x => x.addr ≠ 0)
    (t.set i (zeroMmapRegionStruct (t.vmas i))).vmas (32 - i).toNat i
  have hslot {j : Int} (hj : j ≠ i) :
      (t.set i (zeroMmapRegionStruct (t.vmas i))).vmas j = t.vmas j :=
    Function.update_of_ne hj _ _
  have hzero : Span.Spare ⟨0, 0⟩ := ⟨Int.le_refl 0, by decide, Int.le_refl 0⟩
  refine SpansOk.remove (m := m) h hn h0 hle (by omega) ?_ hzero ?_
  · intro hm
    have hunused := hstop (by omega)
    rw [hslot (by omega)] at hunused
    show (t.vmas (m + 1)).addr = 0
    simpa using hunused
  · intro j
    unfold spans
    simp only [hf]
    by_cases hj : i ≤ j ∧ j < m
    · rw [if_pos hj, if_pos hj, copyMmapStruct, hslot (by omega : j + 1 ≠ i)]
    · rw [if_neg hj, if_neg hj]
      by_cases hji : j = i
      · have hself : (t.set i (zeroMmapRegionStruct (t.vmas i))).vmas i =
            zeroMmapRegionStruct (t.vmas i) := Function.update_self i _ _
        rw [if_pos hji, hji, hself]
        rfl
      · rw [if_neg hji, hslot hji]

/-- Taking whole pages away from the front of entry `i`. -/
theorem Inv.shorten (h : t.Inv) {i : Int} (hplaced : (t.spans i).Placed) {u : Int}
    (hu : pgsize ∣ u) (h0 : 0 ≤ u) (hlt : u < (t.vmas i).len) :
    (t.set i { t.vmas i with addr := i32 ((t.vmas i).addr + u),
                             len := i32 ((t.vmas i).len - u) }).Inv := by
  have hle := (t.spans i).le_roundEnd
  have hend := hplaced.end_le
  have hbase := hplaced.base_le
  have haddr : (t.spans i).addr = (t.vmas i).addr := rfl
  have hlen : (t.spans i).len = (t.vmas i).len := rfl
  have hm : mmapBase = 0x60000000 := rfl
  have hk : kernBase = 0x80000000 := rfl
  unfold Inv
  rw [spans_set, totalVmas_set, i32_of_mem (by omega) (by omega), i32_of_mem (by omega) (by omega)]
  exact SpansOk.shorten h hplaced hu h0 hlt

/-- `umunmap` keeps the table in order. -/
theorem Inv.umunmap (h : t.Inv) {addr length filewrite : Int}
    (hsafe : ∀ i, t.findVma (u32 (pgroundup addr)) = some i → (t.vmas i).len ≠ 0 →
      0 ≤ pgroundup length ∧ (t.totalVmas = 0 → pgroundup length < (t.vmas i).len)) :
    (t.umunmap addr length filewrite).2.1.Inv := by
  unfold Table.umunmap
  simp only
  cases hfind : t.findVma (u32 (pgroundup addr)) with
  | none => exact h
  | some i =>
    obtain ⟨h0, hi, -, -⟩ := findFrom_eq_some hfind
    simp only
    by_cases hlen : (t.vmas i).len = 0
    · rw [if_pos hlen]
      exact h
    · rw [if_neg hlen]
      obtain ⟨hsize, hempty⟩ := hsafe i hfind hlen
      by_cases hwrite : has (t.vmas i).flags mapShared ∧ ¬ has (t.vmas i).flags mapAnonymous ∧
          has (t.vmas i).prot protWrite ∧ filewrite < 0
      · rw [if_pos hwrite]
        exact h
      · rw [if_neg hwrite]
        by_cases hall : (t.vmas i).len ≤ pgroundup length
        · rw [if_pos hall]
          have hn : 0 < t.totalVmas := by
            have := h.nonneg
            by_contra hle
            have := hempty (by omega)
            omega
          exact h.shiftDown hn h0 (by omega)
        · rw [if_neg hall]
          -- an entry that is longer than the part removed is a mapping
          have hplaced : (t.spans i).Placed := by
            rcases h.slot i h0 (by omega) with hspare | hplaced
            · have := hspare.len_le
              have : (t.spans i).len = (t.vmas i).len := rfl
              omega
            · exact hplaced
          exact h.shorten hplaced (dvd_pgroundup length) hsize (by omega)

/-! ## Page faults -/

/-- A page fault that makes entry 0 grow: the address is in the user part above `MMAPBASE`, no
mapping covers it, and the second loop of `pgft_handler` finds entry 0 growable. -/
structure Grows (t : Table) (faultAddr : Int) : Prop where
  base_le : mmapBase ≤ faultAddr
  lt_kern : faultAddr < kernBase
  uncovered : t.covering faultAddr = none
  growable : t.growable faultAddr

/-- `pgft_handler` keeps the table in order. -/
theorem Inv.pgftHandler (h : t.Inv) {faultAddr : Int} {present : Bool}
    (hsafe : t.Grows faultAddr → (t.spans 0).roundEnd + pgsize ≤
      if t.totalVmas = 1 then kernBase else (t.spans 1).addr) :
    (t.pgftHandler faultAddr present).2.Inv := by
  unfold Table.pgftHandler
  by_cases hout : kernBase ≤ faultAddr ∨ faultAddr < mmapBase
  · rw [if_pos hout]
    exact h
  · rw [if_neg hout]
    cases hcover : t.covering faultAddr with
    | some i =>
      simp only
      split
      · exact h
      · exact h
    | none =>
      simp only
      by_cases hgrow : t.growable faultAddr
      · rw [if_pos hgrow]
        have hroom := hsafe ⟨by omega, by omega, hcover, hgrow⟩
        have hn := hgrow.1
        have hfirst := h.live 0 (by omega) hn
        have hbase := hfirst.base_le
        have hpos := hfirst.len_pos
        have hle := (t.spans 0).le_roundEnd
        have hend : (t.spans 0).roundEnd ≤ kernBase := hfirst.end_le
        have hlen : (t.spans 0).len = (t.vmas 0).len := rfl
        have hm : mmapBase = 0x60000000 := rfl
        have hk : kernBase = 0x80000000 := rfl
        have hp : pgsize = 4096 := rfl
        show (t.grown).Inv
        unfold Inv grown
        rw [spans_set, totalVmas_set, i32_of_mem (by omega) (by omega)]
        exact SpansOk.grow h hn hroom
      · rw [if_neg hgrow]
        exact h

/-! ## Runs -/

/-- The calls that keep the table in order. -/
def Safe (t : Table) : Call → Prop
  | .ummap addr length _ flags _ _ =>
    t.Reaches (i32 addr) (i32 length) flags → t.Placeable (i32 addr) (i32 length)
  | .umunmap addr length _ =>
    ∀ i, t.findVma (u32 (pgroundup (i32 addr))) = some i → (t.vmas i).len ≠ 0 →
      0 ≤ pgroundup (i32 length) ∧
        (t.totalVmas = 0 → pgroundup (i32 length) < (t.vmas i).len)
  | .pgft faultAddr _ =>
    t.Grows (u32 faultAddr) → (t.spans 0).roundEnd + pgsize ≤
      if t.totalVmas = 1 then kernBase else (t.spans 1).addr
  | .ofile _ | .neighbour _ => True

instance (t : Table) (addr length : Int) (flags : UInt32) :
    Decidable (t.Reaches addr length flags) :=
  decidable_of_iff (t.totalVmas < 32 ∧ (has flags mapPrivate ∨ has flags mapShared) ∧
    u32 (pgroundup (i32 (pgroundup addr + length))) ≤ kernBase ∧
    (has flags mapFixed → addr ≠ 0 ∧ mmapBase ≤ addr))
    ⟨fun h => ⟨h.1, h.2.1, h.2.2.1, h.2.2.2⟩, fun h => ⟨h.room, h.kind, h.below, h.fixed⟩⟩

instance (t : Table) (addr length : Int) : Decidable (t.Placeable addr length) :=
  decidable_of_iff (0 < length ∧
    (t.totalVmas = 0 → mmapBase ≤ pgroundup addr ∨ pgroundup addr ≤ t.endOf (-1)) ∧
    (t.totalVmas ≠ 0 → (t.spans (t.totalVmas - 1)).roundEnd < kernBase) ∧
    (2 ≤ t.totalVmas → pgroundup addr + length ≠ kernBase))
    ⟨fun h => ⟨h.1, h.2.1, h.2.2.1, h.2.2.2⟩, fun h => ⟨h.positive, h.hint, h.last, h.wrap⟩⟩

instance (t : Table) (faultAddr : Int) : Decidable (t.Grows faultAddr) :=
  decidable_of_iff (mmapBase ≤ faultAddr ∧ faultAddr < kernBase ∧ t.covering faultAddr = none ∧
    t.growable faultAddr)
    ⟨fun h => ⟨h.1, h.2.1, h.2.2.1, h.2.2.2⟩,
      fun h => ⟨h.base_le, h.lt_kern, h.uncovered, h.growable⟩⟩

instance (t : Table) : (c : Call) → Decidable (t.Safe c)
  | .ummap addr length _ flags _ _ =>
    inferInstanceAs (Decidable (t.Reaches (i32 addr) (i32 length) flags →
      t.Placeable (i32 addr) (i32 length)))
  | .umunmap addr length _ =>
    inferInstanceAs (Decidable (∀ i ∈ t.findVma (u32 (pgroundup (i32 addr))),
      (t.vmas i).len ≠ 0 → 0 ≤ pgroundup (i32 length) ∧
        (t.totalVmas = 0 → pgroundup (i32 length) < (t.vmas i).len)))
  | .pgft faultAddr _ =>
    inferInstanceAs (Decidable (t.Grows (u32 faultAddr) → (t.spans 0).roundEnd + pgsize ≤
      if t.totalVmas = 1 then kernBase else (t.spans 1).addr))
  | .ofile _ | .neighbour _ => inferInstanceAs (Decidable True)

/-- A call that is safe keeps the invariant. -/
theorem Inv.next (h : t.Inv) {c : Call} (hc : t.Safe c) : (t.next c).Inv := by
  cases c with
  | ummap addr length prot flags offset file => exact h.ummap (i32_mem length).2 hc
  | umunmap addr length filewrite => exact h.umunmap hc
  | pgft faultAddr present => exact h.pgftHandler hc
  | ofile below =>
    have hle := h.le
    have hold : ∀ j, 0 ≤ j → (t.set (-1) below).spans j = t.spans j := by
      intro j hj
      rw [spans_set, Function.update_of_ne (by omega)]
    refine ⟨h.nonneg, h.le, ?_, ?_, h.sorted.congr fun i h0 _ => hold i h0⟩
    · intro i h0 hi
      rw [Table.next, hold i h0]
      exact h.slot i h0 hi
    · intro i h0 hi
      rw [Table.next, hold i h0]
      exact h.live i h0 hi
  | neighbour above =>
    have hle := h.le
    have hold : ∀ j, j ≠ 32 → (t.set 32 (above.vma t.totalVmas)).spans j = t.spans j := by
      intro j hj
      rw [spans_set, Function.update_of_ne hj]
    have hlt {i : Int} (hi : i < (t.next (.neighbour above)).totalVmas) : i ≠ 32 := by
      have : i < t.totalVmas := hi
      omega
    refine ⟨h.nonneg, h.le, ?_, ?_, h.sorted.congr fun i _ hi => hold i (hlt hi)⟩
    · intro i h0 hi
      by_cases hi32 : i = 32
      · left
        rw [Table.next, spans_set, hi32, Function.update_self]
        exact ⟨above.sz_nonneg, above.sz_lt, above.pgdir_le⟩
      · rw [Table.next, hold i hi32]
        exact h.slot i h0 hi
    · intro i h0 hi
      rw [Table.next, hold i (hlt hi)]
      exact h.live i h0 hi

/-- The table of a process that has not mapped anything: 32 zeroed entries, the fields of some
next process behind them. -/
structure Empty (t : Table) : Prop where
  total : t.totalVmas = 0
  zero : ∀ i, 0 ≤ i → i < 32 → (t.vmas i).addr = 0 ∧ (t.vmas i).len = 0
  behind : ∃ n : Neighbour, t.vmas 32 = n.vma 0

theorem Empty.inv (h : t.Empty) : t.Inv := by
  have htotal := h.total
  refine ⟨by omega, by omega, ?_, fun i h0 hi => by omega, fun i j h0 hij hj => by omega⟩
  intro i h0 hi
  left
  by_cases hi32 : i = 32
  · obtain ⟨n, hn⟩ := h.behind
    unfold spans
    rw [hi32, hn]
    exact ⟨n.sz_nonneg, n.sz_lt, n.pgdir_le⟩
  · obtain ⟨haddr, hlen⟩ := h.zero i h0 (by omega)
    unfold spans
    rw [haddr, hlen]
    exact ⟨Int.le_refl 0, by decide, Int.le_refl 0⟩

/-- The live entries are page-aligned, have a positive length, lie between `MMAPBASE` and
`KERNBASE`, and come in strictly increasing order with disjoint page-rounded ranges. -/
structure InOrder (t : Table) : Prop where
  total_nonneg : 0 ≤ t.totalVmas
  total_le : t.totalVmas ≤ 32
  entry : ∀ i, 0 ≤ i → i < t.totalVmas →
    pgsize ∣ (t.vmas i).addr ∧ 0 < (t.vmas i).len ∧ mmapBase ≤ (t.vmas i).addr ∧
      alignUp pgsize ((t.vmas i).addr + (t.vmas i).len) ≤ kernBase
  increasing : ∀ i j, 0 ≤ i → i < j → j < t.totalVmas → (t.vmas i).addr < (t.vmas j).addr
  disjoint : ∀ i j, 0 ≤ i → i < t.totalVmas → 0 ≤ j → j < t.totalVmas → i ≠ j →
    ∀ x, (t.vmas i).addr ≤ x → x < alignUp pgsize ((t.vmas i).addr + (t.vmas i).len) →
      ¬ ((t.vmas j).addr ≤ x ∧ x < alignUp pgsize ((t.vmas j).addr + (t.vmas j).len))

theorem Inv.inOrder (h : t.Inv) : t.InOrder := by
  have hsorted : ∀ i j, 0 ≤ i → i < j → j < t.totalVmas →
      alignUp pgsize ((t.vmas i).addr + (t.vmas i).len) ≤ (t.vmas j).addr := h.sorted
  refine ⟨h.nonneg, h.le, ?_, ?_, ?_⟩
  · intro i h0 hi
    have hplaced := h.live i h0 hi
    exact ⟨hplaced.aligned, hplaced.len_pos, hplaced.base_le, hplaced.end_le⟩
  · intro i j h0 hij hj
    have hlt : (t.vmas i).addr < alignUp pgsize ((t.vmas i).addr + (t.vmas i).len) :=
      (h.live i h0 (by omega)).addr_lt
    have := hsorted i j h0 hij hj
    omega
  · rintro i j hi0 hi hj0 hj hij x hx1 hx2 ⟨hx3, hx4⟩
    rcases Int.lt_or_gt_of_ne hij with hlt | hgt
    · have := hsorted i j hi0 hlt hj
      omega
    · have := hsorted j i hj0 hgt hi
      omega

/-- The steps of the table. -/
def step (t : Table) (c : Call) : Option Table := some (t.next c)

/-- In every run from an empty table whose calls are all safe, the table is in order after every
call. -/
theorem table_inOrder {t₀ : Table} {cs : List Call} (hempty : t₀.Empty)
    (run : Run (guarded Safe (stepOf step)) t₀ cs t) : t.InOrder := by
  have hinv : t.Inv := by
    apply run.invariant Inv hempty.inv
    rintro u c v hu ⟨hc, hstep⟩
    cases hstep
    exact hu.next hc
  exact hinv.inOrder

/-- A zeroed process next to an unused one. -/
def freshTable : Table where
  vmas := fun _ => ⟨⟨0, 0, 0, 0, 0, 0⟩, 0, 0, 0⟩
  totalVmas := 0

theorem freshTable_empty : freshTable.Empty :=
  ⟨rfl, fun _ _ _ => ⟨rfl, rfl⟩,
    ⟨⟨0, 0, 0, 0, 0, 0, 0, 0, Int.le_refl 0, by decide, Int.le_refl 0⟩, rfl⟩⟩

/-- `mmap(0, 4096, ..., MAP_PRIVATE, ...)`. -/
def mapPage : Call := .ummap 0 4096 0 mapPrivate 0 0

/-- A page that may grow, three pages behind a gap, a fault that makes the first entry grow and one
in the second, the first page of the second entry unmapped, and one page more, which is placed
between the two. -/
def growAndShrink : List Call :=
  [.ummap 0 4096 0 (mapPrivate ||| mapGrowsup) 0 0,
    .ummap (mmapBase + 0x10000) 12288 0 mapPrivate 0 0, .pgft (mmapBase + 0x2000) false,
    .pgft (mmapBase + 0x10000) false, .umunmap (mmapBase + 0x10000) 4096 0, mapPage]

/-- The theorem at these calls, which leave three entries. -/
theorem table_inOrder_three_entries :
    ∃ t, Run (guarded Safe (stepOf step)) freshTable growAndShrink t ∧ t.totalVmas = 3 ∧
      t.spans 0 = ⟨mmapBase, 8192⟩ ∧ t.spans 1 = ⟨mmapBase + 0x2000, 4096⟩ ∧
      t.spans 2 = ⟨mmapBase + 0x11000, 8192⟩ ∧ t.InOrder := by
  have hobs : (runOf (fun t c => if t.Safe c then step t c else none) freshTable
      growAndShrink).map (fun t => (t.totalVmas, t.spans 0, t.spans 1, t.spans 2)) =
        some (3, ⟨mmapBase, 8192⟩, ⟨mmapBase + 0x2000, 4096⟩, ⟨mmapBase + 0x11000, 8192⟩) := by
    decide +kernel
  obtain ⟨t, ht, hfacts⟩ := Option.map_eq_some_iff.mp hobs
  simp only [Prod.mk.injEq] at hfacts
  obtain ⟨htotal, hfirst, hsecond, hthird⟩ := hfacts
  have hrun := run_guarded_of_runOf ht
  exact ⟨t, hrun, htotal, hfirst, hsecond, hthird, table_inOrder freshTable_empty hrun⟩

-- a length of 0 makes a live entry without pages
example : (runOf step freshTable [.ummap 0 0 0 mapPrivate 0 0]).map
    (fun t => (t.totalVmas, t.spans 0)) = some (1, ⟨mmapBase, 0⟩) := by decide +kernel

-- a hint below `MMAPBASE` is taken when the table is empty
example : (runOf step freshTable [.ummap 4096 4096 0 mapPrivate 0 0]).map
    (fun t => (t.totalVmas, t.spans 0)) = some (1, ⟨4096, 4096⟩) := by decide +kernel

-- a fault below entry 0 makes it grow into entry 1
example : (runOf step freshTable [.ummap (mmapBase + 8192) 4096 0 (mapPrivate ||| mapGrowsup) 0 0,
    .ummap (mmapBase + 16384) 4096 0 mapPrivate 0 0, .pgft mmapBase false, .pgft mmapBase false]).map
    (fun t => (t.spans 0, t.spans 1)) =
      some (⟨mmapBase + 8192, 12288⟩, ⟨mmapBase + 16384, 4096⟩) := by decide +kernel

/-- Two pages are mapped and unmapped in the same order, the second one twice. The entry that
moved down is still in its old slot, where the last call finds it. -/
def unmapTwice : List Call :=
  [mapPage, mapPage, .umunmap mmapBase 4096 0, .umunmap (mmapBase + 4096) 4096 0,
    .umunmap (mmapBase + 4096) 4096 0]

/-- After that, `total_vmas` is -1. -/
theorem table_not_inOrder_after_unmapTwice :
    ∃ t, freshTable.Empty ∧ Run (stepOf step) freshTable unmapTwice t ∧ t.totalVmas = -1 ∧
      ¬ t.InOrder := by
  have hobs : (runOf step freshTable unmapTwice).map totalVmas = some (-1) := by decide +kernel
  obtain ⟨t, hrun, htotal⟩ := Option.map_eq_some_iff.mp hobs
  refine ⟨t, freshTable_empty, run_of_runOf hrun, htotal, ?_⟩
  intro h
  have := h.total_nonneg
  omega

end Table

end Cs537.P5
