import Cs537.P5.Fork
import Cs537.P5.Memory
import Cs537.P5.VmaRuns

/-!
# What a page fault does

`pgft_handler` looks for a mapping that covers the address and then for one that may grow into it.
The first search takes the byte behind a mapping for part of it, and kills the process if there is
a page table for the address, whether the page is present or not, unless the mapping is shared or
may grow. The loop of the second search ends after entry 0. `handled_iff` says in which states the
outcome is the right one all the same.
-/

namespace Cs537.P5

open Cs537.Lib

namespace Table

variable {t : Table} {va : Int}

/-- The live mappings are page-aligned, not empty and in the user part, and they come in order with
disjoint pages. -/
structure Ordered (t : Table) : Prop where
  aligned : ∀ i, t.Live i → pgsize ∣ (t.spans i).addr
  len_pos : ∀ i, t.Live i → 0 < (t.spans i).len
  addr_nonneg : ∀ i, t.Live i → 0 ≤ (t.spans i).addr
  end_le : ∀ i, t.Live i → (t.spans i).roundEnd ≤ kernBase
  sorted : Separated Span.addr Span.roundEnd t.spans t.totalVmas

/-- An address in the pages of mapping `i`. -/
structure Inside (t : Table) (va i : Int) : Prop where
  live : t.Live i
  addr_le : (t.spans i).addr ≤ va
  lt_end : va < (t.spans i).roundEnd

/-- An address in the page above mapping `i`, which may grow and has another free page behind. -/
structure InGuard (t : Table) (va i : Int) : Prop where
  live : t.Live i
  growsup : has (t.vmas i).flags mapGrowsup = true
  end_le : (t.spans i).roundEnd ≤ va
  lt_next : va < (t.spans i).roundEnd + pgsize
  room : i + 1 < t.totalVmas → (t.spans i).roundEnd + 2 * pgsize ≤ (t.spans (i + 1)).addr

/-! ## The two searches -/

theorem Ordered.addr_lt (h : t.Ordered) {i : Int} (hi : t.Live i) :
    (t.spans i).addr < (t.spans i).roundEnd := by
  have := (t.spans i).le_roundEnd
  have := h.len_pos i hi
  omega

/-- Whether the first search stops at an entry. -/
theorem Ordered.covers_iff (h : t.Ordered) {i : Int} (hi : t.Live i) (va : Int) :
    (u32 (t.vmas i).addr ≤ va ∧ va ≤ u32 ((t.vmas i).addr + (t.vmas i).len)) ↔
      (t.spans i).addr ≤ va ∧ va ≤ (t.spans i).addr + (t.spans i).len := by
  have hk : kernBase = 0x80000000 := rfl
  have hle := (t.spans i).le_roundEnd
  have hend := h.end_le i hi
  have h0 := h.addr_nonneg i hi
  have hpos := h.len_pos i hi
  have haddr : u32 (t.vmas i).addr = (t.spans i).addr :=
    u32_of_mem h0 (by show (t.spans i).addr < _; omega)
  have hsum : u32 ((t.vmas i).addr + (t.vmas i).len) = (t.spans i).addr + (t.spans i).len :=
    u32_of_mem (by show 0 ≤ (t.spans i).addr + (t.spans i).len; omega)
      (by show (t.spans i).addr + (t.spans i).len < _; omega)
  rw [haddr, hsum]

theorem Ordered.covering_some (h : t.Ordered) {i : Int} (hcover : t.covering va = some i) :
    t.Live i ∧ (t.spans i).addr ≤ va ∧ va ≤ (t.spans i).addr + (t.spans i).len := by
  obtain ⟨h0, hlt, hp, -⟩ := findFrom_eq_some hcover
  have hi : t.Live i := ⟨h0, by omega⟩
  exact ⟨hi, (h.covers_iff hi va).mp (of_decide_eq_true hp)⟩

theorem Ordered.covering_none (h : t.Ordered) (hcover : t.covering va = none) {i : Int}
    (hi : t.Live i) : ¬ ((t.spans i).addr ≤ va ∧ va ≤ (t.spans i).addr + (t.spans i).len) := by
  have hp := findFrom_eq_none hcover i hi.1 (by have := hi.2; omega)
  rw [← h.covers_iff hi]
  exact of_decide_eq_false hp

/-- Whether the second search makes entry 0 grow. -/
theorem Ordered.growable_iff (h : t.Ordered) (h0 : 0 ≤ va) (hhi : va < kernBase) :
    t.growable va ↔ 0 < t.totalVmas ∧ has (t.vmas 0).flags mapGrowsup = true ∧
      (t.totalVmas = 1 ∨ alignUp pgsize va + pgsize < (t.spans 1).addr) := by
  have hk : kernBase = 0x80000000 := rfl
  have hp : pgsize = 4096 := rfl
  have hup := le_alignUp Span.pgsize_pos va
  have hup' : alignUp pgsize va ≤ kernBase := alignUp_le Span.pgsize_pos _ (by decide) (by omega)
  have hself : u32 (alignUp pgsize va) = alignUp pgsize va := u32_of_mem (by omega) (by omega)
  have hround : u32 (u32 (alignUp pgsize va) + pgsize) = alignUp pgsize va + pgsize := by
    rw [hself]
    exact u32_of_mem (by omega) (by omega)
  unfold growable
  rw [hround]
  refine and_congr_right fun hn => and_congr_right fun _ => ?_
  by_cases hone : t.totalVmas = 1
  · exact ⟨fun _ => .inl hone, fun _ => .inl (by omega)⟩
  · have hlive : t.Live 1 := ⟨by decide, by omega⟩
    have hend := h.end_le 1 hlive
    have hlt := h.addr_lt hlive
    have haddr : u32 (t.vmas 1).addr = (t.spans 1).addr :=
      u32_of_mem (h.addr_nonneg 1 hlive) (by show (t.spans 1).addr < _; omega)
    rw [haddr]
    constructor
    · exact fun hor => .inr (hor.resolve_left (by omega))
    · exact fun hor => .inr (hor.resolve_left hone)

/-- Growing changes the table. -/
theorem grown_ne (t : Table) : t.grown ≠ t := by
  intro heq
  have hlen := congrArg (fun t : Table => (t.vmas 0).len) heq
  simp only [grown, set, Function.update_self] at hlen
  unfold i32 pgsize at hlen
  omega

/-- An address right behind a mapping that is covered all the same. -/
theorem Ordered.covering_guard (h : t.Ordered) {i j : Int} (hout : ¬ ∃ i, t.Inside va i)
    (hguard : t.InGuard va i) (hcover : t.covering va = some j) :
    j = i ∧ va = (t.spans i).addr + (t.spans i).len := by
  obtain ⟨hj, hlo, hhi⟩ := h.covering_some hcover
  have hle := (t.spans j).le_roundEnd
  have hend : (t.spans j).roundEnd ≤ va := by
    by_contra hlt
    exact hout ⟨j, hj, hlo, by omega⟩
  have habove := hguard.end_le
  have hnext := hguard.lt_next
  have hp : pgsize = 4096 := rfl
  have hij : j = i := by
    rcases Int.lt_trichotomy j i with hlt | heq | hgt
    · have := h.sorted j i hj.1 hlt hguard.live.2
      have := h.addr_lt hguard.live
      omega
    · exact heq
    · have hroom := hguard.room (by have := hj.2; omega)
      have hlt := h.addr_lt hj
      have hsorted : (t.spans (i + 1)).addr ≤ (t.spans j).addr := by
        rcases Int.lt_or_eq_of_le (show i + 1 ≤ j by omega) with hlt' | heq
        · have := h.sorted (i + 1) j (by have := hguard.live.1; omega) hlt' hj.2
          have := h.addr_lt (i := i + 1)
            ⟨by have := hguard.live.1; omega, by have := hj.2; omega⟩
          omega
        · rw [heq]
      omega
  refine ⟨hij, ?_⟩
  rw [← hij]
  omega

end Table

namespace Machine

variable {m m' : Machine} {va : Int}

/-- Exactly the page of an address is new, and the process was not killed. -/
def MapsPage (m m' : Machine) (va : Int) : Prop :=
  m'.killed = m.killed ∧ ∃ e, m'.dir.pte = Function.update m.dir.pte (pageOf va) (some e)

/-- What a page fault should do: map the page of a mapping, make a mapping grow by a page into its
guard, or kill the process and change nothing else. -/
structure Handled (m : Machine) (va : Int) : Prop where
  inside : (∃ i, m.maps.Inside va i) → ∃ m', m.pgftHandler none va = .ok m' ∧ MapsPage m m' va
  guard : (¬ ∃ i, m.maps.Inside va i) → ∀ i, m.maps.InGuard va i →
    ∃ m', m.pgftHandler none va = .ok m' ∧ MapsPage m m' va ∧
      m'.maps = m.maps.set i { m.maps.vmas i with len := (m.maps.vmas i).len + pgsize }
  other : (¬ ∃ i, m.maps.Inside va i) → (¬ ∃ i, m.maps.InGuard va i) →
    ∃ m', m.pgftHandler none va = .ok m' ∧ m'.killed = true ∧ m'.dir = m.dir ∧ m'.maps = m.maps

/-- `do_map` succeeds. -/
def CanMap (m : Machine) (va : Int) (vma : Vma) : Prop := m.Enough va ∧ m.CanFill va vma

/-- `do_map` is called for a mapping although there may be a page table for the address. -/
def Admitted (m : Machine) (va : Int) (vma : Vma) : Prop :=
  m.dir.table (pdx va) = none ∨ has vma.flags mapGrowsup = true ∨ has vma.flags mapShared = true

/-- The states in which a page fault is handled right. -/
structure HandlesOk (m : Machine) (va : Int) : Prop where
  covered : (∃ i, m.maps.Inside va i) → ∀ i, m.maps.covering va = some i →
    m.Admitted va (m.maps.vmas i) ∧ m.CanMap va (m.maps.vmas i)
  uncovered : (∃ i, m.maps.Inside va i) → m.maps.covering va = none →
    m.maps.growable va ∧ m.CanMap va (m.maps.grown.vmas 0)
  guard : (¬ ∃ i, m.maps.Inside va i) → ∀ i, m.maps.InGuard va i →
    i = 0 ∧ va ≠ (m.maps.spans 0).addr + (m.maps.spans 0).len ∧
      (m.maps.totalVmas = 1 ∨ alignUp pgsize va + pgsize < (m.maps.spans 1).addr) ∧
      (m.maps.spans 0).len + pgsize < 2 ^ 31 ∧ m.CanMap va (m.maps.grown.vmas 0)
  behind : (¬ ∃ i, m.maps.Inside va i) → (¬ ∃ i, m.maps.InGuard va i) →
    ∀ i, m.maps.covering va = some i → m.Admitted va (m.maps.vmas i) → ¬ m.Enough va
  other : (¬ ∃ i, m.maps.Inside va i) → (¬ ∃ i, m.maps.InGuard va i) →
    m.maps.covering va = none → ¬ m.maps.growable va

/-! ## The outcome -/

/-- What comes of a fault for which `do_map` is called. -/
inductive Outcome (m : Machine) (va : Int) (vma : Vma) (t : Table) (r : Except Halt Machine) : Prop
  | killed (m' : Machine) (few : ¬ m.Enough va) (eq : r = .ok m') (killed : m'.killed = true)
      (dir : m'.dir = m.dir) (maps : m'.maps = t)
  | mapped (m' : Machine) (can : m.CanMap va vma) (eq : r = .ok m') (page : MapsPage m m' va)
      (maps : m'.maps = t)
  | faults (enough : m.Enough va) (cannot : ¬ m.CanMap va vma) (eq : r = .error .fault)

theorem doMap_outcome (vma : Vma) (t : Table) (h0 : 0 ≤ va) (hhi : va < 2 ^ 32)
    (habsent : m.dir.pte (pageOf va) = none) :
    Outcome m va vma t ({ m with maps := t }.doMap none va vma) := by
  cases doMap_cases (m := { m with maps := t }) none vma h0 hhi habsent with
  | killed free bytes few suffix same eq => exact .killed _ few eq rfl rfl rfl
  | mapped mem rest free dir enough taken suffix pte eq =>
    have hfills : (∀ k < (m.fillBytes vma).length,
        CanWrite dir (pageOf va * pgsize + k)) ↔ m.CanFill va vma := by
      refine forall₂_congr fun k _ => ?_
      unfold CanWrite
      rw [pte]
      by_cases hpage : pageOf (pageOf va * pgsize + k) = pageOf va
      · rw [if_pos hpage, hpage, Function.update_self, ← has_mapPerm]
        constructor
        · rintro ⟨e, he, hwrite⟩
          cases he
          exact hwrite
        · exact fun hwrite => ⟨_, rfl, hwrite⟩
      · rw [if_neg hpage, Function.update_of_ne hpage]
    rcases fillPage_cases
      { m with free := free, bytes := m.bytes.fill mem 0, dir := dir, maps := t } va vma with
      ⟨hall, m', hok, hkilled, hdir, hmaps⟩ | ⟨hnot, herror⟩
    · refine .mapped m' ⟨enough, hfills.mp hall⟩ (eq.trans hok)
        ⟨hkilled, ⟨mem, mapPerm vma⟩, ?_⟩ hmaps
      rw [hdir]
      exact pte
    · exact .faults enough (fun hcan => hnot (hfills.mpr hcan.2)) (eq.trans herror)

theorem not_mapsPage_of_dir (habsent : m.dir.pte (pageOf va) = none) (hdir : m'.dir = m.dir) :
    ¬ MapsPage m m' va := by
  rintro ⟨-, e, hpte⟩
  rw [hdir] at hpte
  have hpage := congrFun hpte (pageOf va)
  rw [habsent, Function.update_self] at hpage
  cases hpage

/-- A fault that the handler takes to a mapping is handled if and only if `do_map` succeeds. -/
theorem Outcome.mapsPage_iff {vma : Vma} {t : Table} {r : Except Halt Machine}
    (h : Outcome m va vma t r) (habsent : m.dir.pte (pageOf va) = none) :
    (∃ m', r = .ok m' ∧ MapsPage m m' va) ↔ m.CanMap va vma := by
  cases h with
  | killed m' few eq killed dir maps =>
    refine ⟨?_, fun hcan => absurd hcan.1 few⟩
    rintro ⟨m₁, hok, hmaps⟩
    cases eq.symm.trans hok
    exact absurd hmaps (not_mapsPage_of_dir habsent dir)
  | mapped m' can eq page maps => exact ⟨fun _ => can, fun _ => ⟨m', eq, page⟩⟩
  | faults enough cannot eq =>
    refine ⟨?_, fun hcan => absurd hcan cannot⟩
    rintro ⟨m₁, hok, -⟩
    cases eq.symm.trans hok

/-- It leaves the page table alone if and only if there are not enough frames. -/
theorem Outcome.unchanged_iff {vma : Vma} {t : Table} {r : Except Halt Machine}
    (h : Outcome m va vma t r) (habsent : m.dir.pte (pageOf va) = none) :
    (∃ m', r = .ok m' ∧ m'.killed = true ∧ m'.dir = m.dir ∧ m'.maps = t) ↔ ¬ m.Enough va := by
  cases h with
  | killed m' few eq killed dir maps =>
    exact ⟨fun _ => few, fun _ => ⟨m', eq, killed, dir, maps⟩⟩
  | mapped m' can eq page maps =>
    refine ⟨?_, fun hfew => absurd can.1 hfew⟩
    rintro ⟨m₁, hok, -, hdir, -⟩
    cases eq.symm.trans hok
    exact absurd page (not_mapsPage_of_dir habsent hdir)
  | faults enough cannot eq =>
    refine ⟨?_, fun hfew => absurd enough hfew⟩
    rintro ⟨m₁, hok, -⟩
    cases eq.symm.trans hok

/-- What the handler does. -/
inductive Handles (m : Machine) (va : Int) : Prop
  | refused (i : Int) (covers : m.maps.covering va = some i)
      (admitted : ¬ m.Admitted va (m.maps.vmas i))
      (eq : m.pgftHandler none va = .ok { m with killed := true })
  | covered (i : Int) (covers : m.maps.covering va = some i)
      (admitted : m.Admitted va (m.maps.vmas i))
      (outcome : Outcome m va (m.maps.vmas i) m.maps (m.pgftHandler none va))
  | grows (uncovered : m.maps.covering va = none) (growable : m.maps.growable va)
      (outcome : Outcome m va (m.maps.grown.vmas 0) m.maps.grown (m.pgftHandler none va))
  | kills (uncovered : m.maps.covering va = none) (growable : ¬ m.maps.growable va)
      (eq : m.pgftHandler none va = .ok { m with killed := true })

/-- The handler takes the fault to the mapping that covers the address. -/
theorem Admitted.handler {i : Int} (h : m.Admitted va (m.maps.vmas i)) (hbase : mmapBase ≤ va)
    (hkern : va < kernBase) (hcover : m.maps.covering va = some i) :
    m.maps.pgftHandler va (m.dir.table (pdx va)).isSome = (.doMap (m.maps.vmas i), m.maps) := by
  unfold Table.pgftHandler
  rw [if_neg (by omega), hcover]
  simp only
  rw [if_neg]
  rintro ⟨hsome, hgrow, hshared⟩
  rcases h with hnone | hflag | hflag
  · rw [hnone] at hsome
    cases hsome
  · exact hgrow hflag
  · exact hshared hflag

theorem pgftHandler_cases (hbase : mmapBase ≤ va) (hkern : va < kernBase)
    (habsent : m.dir.pte (pageOf va) = none) : m.Handles va := by
  have hm : mmapBase = 0x60000000 := rfl
  have hk : kernBase = 0x80000000 := rfl
  have hout : ¬ (kernBase ≤ va ∨ va < mmapBase) := by omega
  cases hcover : m.maps.covering va with
  | some i =>
    by_cases hadmitted : m.Admitted va (m.maps.vmas i)
    · refine .covered i hcover hadmitted ?_
      unfold pgftHandler
      rw [hadmitted.handler hbase hkern hcover]
      exact doMap_outcome _ _ (by omega) (by omega) habsent
    · refine .refused i hcover hadmitted ?_
      unfold Admitted at hadmitted
      unfold pgftHandler Table.pgftHandler
      rw [if_neg hout, hcover]
      simp only
      rw [if_pos]
      refine ⟨Option.isSome_iff_ne_none.mpr ?_, ?_, ?_⟩
      all_goals tauto
  | none =>
    have htable : m.maps.pgftHandler va (m.dir.table (pdx va)).isSome =
        if m.maps.growable va then (.doMap (m.maps.grown.vmas 0), m.maps.grown)
        else (.killed, m.maps) := by
      unfold Table.pgftHandler
      rw [if_neg hout, hcover]
    by_cases hgrow : m.maps.growable va
    · refine .grows hcover hgrow ?_
      unfold pgftHandler
      rw [htable, if_pos hgrow]
      exact doMap_outcome _ _ (by omega) (by omega) habsent
    · refine .kills hcover hgrow ?_
      unfold pgftHandler
      rw [htable, if_neg hgrow]

theorem Outcome.maps_eq {vma : Vma} {t : Table} {r : Except Halt Machine}
    (h : Outcome m va vma t r) (hok : r = .ok m') : m'.maps = t := by
  cases h with
  | killed m₁ few eq killed dir maps =>
    cases eq.symm.trans hok
    exact maps
  | mapped m₁ can eq page maps =>
    cases eq.symm.trans hok
    exact maps
  | faults enough cannot eq => cases eq.symm.trans hok

/-! ## When faults are handled right -/

section

variable (hordered : m.maps.Ordered) (hbase : mmapBase ≤ va) (hkern : va < kernBase)
  (habsent : m.dir.pte (pageOf va) = none)

include hbase hkern habsent

/-- An address inside a mapping. -/
theorem inside_iff :
    (∃ m', m.pgftHandler none va = .ok m' ∧ MapsPage m m' va) ↔
      (∀ i, m.maps.covering va = some i →
        m.Admitted va (m.maps.vmas i) ∧ m.CanMap va (m.maps.vmas i)) ∧
      (m.maps.covering va = none → m.maps.growable va ∧ m.CanMap va (m.maps.grown.vmas 0)) := by
  have hkilled : ¬ ∃ m', Except.ok { m with killed := true } = (.ok m' : Except Halt Machine) ∧
      MapsPage m m' va := by
    rintro ⟨m', hok, hmaps⟩
    cases hok
    exact absurd hmaps (not_mapsPage_of_dir habsent rfl)
  cases pgftHandler_cases hbase hkern habsent with
  | refused i covers admitted eq =>
    rw [eq, covers]
    refine ⟨fun h => absurd h hkilled, fun h => ?_⟩
    exact absurd (h.1 i rfl).1 admitted
  | covered i covers admitted outcome =>
    rw [outcome.mapsPage_iff habsent, covers]
    constructor
    · intro hcan
      refine ⟨?_, fun hnone => by cases hnone⟩
      intro j hj
      cases hj
      exact ⟨admitted, hcan⟩
    · exact fun h => (h.1 i rfl).2
  | grows uncovered growable outcome =>
    rw [outcome.mapsPage_iff habsent, uncovered]
    constructor
    · exact fun hcan => ⟨fun i hi => (by cases hi), fun _ => ⟨growable, hcan⟩⟩
    · exact fun h => (h.2 rfl).2
  | kills uncovered growable eq =>
    rw [eq, uncovered]
    refine ⟨fun h => absurd h hkilled, fun h => ?_⟩
    exact absurd (h.2 rfl).1 growable

include hordered

/-- An address in the guard above a mapping that may grow. -/
theorem guard_iff {i : Int} (hout : ¬ ∃ i, m.maps.Inside va i) (hguard : m.maps.InGuard va i) :
    (∃ m', m.pgftHandler none va = .ok m' ∧ MapsPage m m' va ∧
        m'.maps = m.maps.set i { m.maps.vmas i with len := (m.maps.vmas i).len + pgsize }) ↔
      i = 0 ∧ va ≠ (m.maps.spans 0).addr + (m.maps.spans 0).len ∧
        (m.maps.totalVmas = 1 ∨ alignUp pgsize va + pgsize < (m.maps.spans 1).addr) ∧
        (m.maps.spans 0).len + pgsize < 2 ^ 31 ∧ m.CanMap va (m.maps.grown.vmas 0) := by
  have hm : mmapBase = 0x60000000 := rfl
  have hp : pgsize = 4096 := rfl
  have hgrown : m.maps.set i { m.maps.vmas i with len := (m.maps.vmas i).len + pgsize } ≠
      m.maps := by
    intro heq
    have hlen := congrArg (fun t : Table => (t.vmas i).len) heq
    simp only [Table.set, Function.update_self] at hlen
    omega
  cases pgftHandler_cases hbase hkern habsent with
  | refused j covers admitted eq =>
    obtain ⟨rfl, -⟩ := hordered.covering_guard hout hguard covers
    exact absurd (.inr (.inl hguard.growsup)) admitted
  | covered j covers admitted outcome =>
    obtain ⟨rfl, hend⟩ := hordered.covering_guard hout hguard covers
    constructor
    · rintro ⟨m', hok, -, hmaps⟩
      exact absurd (hmaps.symm.trans (outcome.maps_eq hok)) hgrown
    · rintro ⟨rfl, hne, -⟩
      exact absurd hend hne
  | grows uncovered growable outcome =>
    obtain ⟨hn, hflag, hroom⟩ := (hordered.growable_iff (by omega) hkern).mp growable
    have hlen : (m.maps.spans 0).len = (m.maps.vmas 0).len := rfl
    have hpos := hordered.len_pos 0 ⟨Int.le_refl 0, hn⟩
    constructor
    · rintro ⟨m', hok, hpage, hmaps⟩
      have hlens := congrArg (fun t : Table => (t.vmas 0).len)
        (hmaps.symm.trans (outcome.maps_eq hok))
      simp only [Table.set, Table.grown, Function.update_self] at hlens
      have hzero : i = 0 := by
        by_contra hne
        rw [Function.update_of_ne (fun heq => hne heq.symm)] at hlens
        unfold i32 at hlens
        omega
      rw [hzero, Function.update_self] at hlens
      simp only at hlens
      have hcan := (outcome.mapsPage_iff habsent).mp ⟨m', hok, hpage⟩
      have hmem := i32_mem ((m.maps.vmas 0).len + pgsize)
      refine ⟨hzero, ?_, hroom, by omega, hcan⟩
      intro hend
      exact hordered.covering_none uncovered ⟨Int.le_refl 0, hn⟩ ⟨by omega, by omega⟩
    · rintro ⟨rfl, -, -, hsmall, hcan⟩
      obtain ⟨m', hok, hpage⟩ := (outcome.mapsPage_iff habsent).mpr hcan
      refine ⟨m', hok, hpage, ?_⟩
      rw [outcome.maps_eq hok, Table.grown, i32_of_mem (by omega) (by omega)]
  | kills uncovered growable eq =>
    constructor
    · rintro ⟨m', hok, hpage, -⟩
      cases eq.symm.trans hok
      exact absurd hpage (not_mapsPage_of_dir habsent rfl)
    · rintro ⟨rfl, -, hroom, -⟩
      exact absurd ((hordered.growable_iff (by omega) hkern).mpr
        ⟨hguard.live.2, hguard.growsup, hroom⟩) growable

omit hordered

/-- An address that belongs to no mapping. -/
theorem other_iff :
    (∃ m', m.pgftHandler none va = .ok m' ∧ m'.killed = true ∧ m'.dir = m.dir ∧
        m'.maps = m.maps) ↔
      (∀ i, m.maps.covering va = some i → m.Admitted va (m.maps.vmas i) → ¬ m.Enough va) ∧
        (m.maps.covering va = none → ¬ m.maps.growable va) := by
  cases pgftHandler_cases hbase hkern habsent with
  | refused i covers admitted eq =>
    rw [covers]
    refine ⟨fun _ => ⟨?_, fun hnone => by cases hnone⟩, fun _ => ⟨_, eq, rfl, rfl, rfl⟩⟩
    intro j hj hadmitted
    cases hj
    exact absurd hadmitted admitted
  | covered i covers admitted outcome =>
    rw [outcome.unchanged_iff habsent, covers]
    constructor
    · intro hfew
      exact ⟨fun _ _ _ => hfew, fun hnone => by cases hnone⟩
    · exact fun h => h.1 i rfl admitted
  | grows uncovered growable outcome =>
    rw [uncovered]
    constructor
    · rintro ⟨m', hok, -, -, hmaps⟩
      exact absurd ((outcome.maps_eq hok).symm.trans hmaps) m.maps.grown_ne
    · exact fun h => absurd growable (h.2 rfl)
  | kills uncovered growable eq =>
    rw [uncovered]
    exact ⟨fun _ => ⟨fun i hi => (by cases hi), fun _ => growable⟩, fun _ => ⟨_, eq, rfl, rfl, rfl⟩⟩

end

/-- A page fault on a page that is not present is handled right exactly in the states that
`HandlesOk` describes. -/
theorem handled_iff (hordered : m.maps.Ordered) (hbase : mmapBase ≤ va)
    (hkern : va < kernBase) (habsent : m.dir.pte (pageOf va) = none) :
    m.Handled va ↔ m.HandlesOk va := by
  have hinside := inside_iff hbase hkern habsent
  have hother := other_iff hbase hkern habsent
  constructor
  · intro h
    refine ⟨fun hin => (hinside.mp (h.inside hin)).1, fun hin => (hinside.mp (h.inside hin)).2, ?_,
      fun hout hno => (hother.mp (h.other hout hno)).1,
      fun hout hno => (hother.mp (h.other hout hno)).2⟩
    intro hout i hguard
    exact (guard_iff hordered hbase hkern habsent hout hguard).mp (h.guard hout i hguard)
  · intro h
    refine ⟨fun hin => hinside.mpr ⟨h.covered hin, h.uncovered hin⟩, ?_,
      fun hout hno => hother.mpr ⟨h.behind hout hno, h.other hout hno⟩⟩
    intro hout i hguard
    exact (guard_iff hordered hbase hkern habsent hout hguard).mpr (h.guard hout i hguard)

/-- A process that has mapped two private pages at `MMAPBASE` and touched none. -/
def twoPages : Machine where
  free := [1, 2, 3, 4]
  bytes := fun _ _ => 0
  dir := ⟨fun _ => none, fun _ => none, PageDir.none_backed⟩
  maps := Table.freshTable.next
    (.ummap 0 8192 protWrite (mapPrivate ||| mapAnonymous) 0 0)
  killed := false
  file := fun _ => ⟨false, false, 0, 0⟩
  data := fun _ => []

theorem twoPages_total : twoPages.maps.totalVmas = 1 := by decide +kernel

theorem twoPages_span : twoPages.maps.spans 0 = ⟨mmapBase, 8192⟩ := by decide +kernel

theorem ordered_of_one {t : Table} (htotal : t.totalVmas = 1) {s : Span} (hspan : t.spans 0 = s)
    (haligned : pgsize ∣ s.addr) (hpos : 0 < s.len) (h0 : 0 ≤ s.addr) (hend : s.roundEnd ≤ kernBase) :
    t.Ordered := by
  have hzero {i : Int} (hi : t.Live i) : i = 0 := by
    have := hi.1
    have := hi.2
    omega
  refine ⟨?_, ?_, ?_, ?_, fun i j h1 h2 h3 => by omega⟩
  all_goals
    intro i hi
    rw [hzero hi, hspan]
    assumption

theorem twoPages_ordered : twoPages.maps.Ordered :=
  ordered_of_one twoPages_total twoPages_span (by decide) (by decide) (by decide) (by decide)

/-- The theorem at the first page. -/
theorem handled_iff_first_page : twoPages.Handled mmapBase := by
  refine (handled_iff twoPages_ordered (by decide) (by decide) rfl).mpr ?_
  have hinside : ∃ i, twoPages.maps.Inside mmapBase i := by
    refine ⟨0, ⟨Int.le_refl 0, by rw [twoPages_total]; decide⟩, ?_, ?_⟩
    · rw [twoPages_span]
    · rw [twoPages_span]
      decide
  have hcover : twoPages.maps.covering mmapBase = some 0 := by decide +kernel
  refine ⟨fun _ i hi => ?_, fun _ hnone => ?_, fun hout => absurd hinside hout,
    fun hout => absurd hinside hout, fun hout => absurd hinside hout⟩
  · rw [hcover] at hi
    cases hi
    refine ⟨.inl rfl, ⟨List.cons_ne_nil _ _, fun _ => by decide⟩, ?_⟩
    have hfill : (twoPages.fillBytes (twoPages.maps.vmas 0)).length = 0 := by decide +kernel
    intro k hk
    rw [hfill] at hk
    exact absurd hk (Nat.not_lt_zero k)
  · rw [hcover] at hnone
    cases hnone

/-- The process once it has touched its first page. -/
def onePageTouched : Machine := (twoPages.pgftHandler none mmapBase).toOption.getD twoPages

/-- Then there is a page table for the second page, and the process is killed when it touches
that. -/
theorem second_page_not_handled :
    ¬ ∀ (m : Machine) (va : Int), m.maps.Ordered → m.free ≠ [] → mmapBase ≤ va → va < kernBase →
      m.dir.pte (pageOf va) = none → m.Handled va := by
  intro hall
  have htotal : onePageTouched.maps.totalVmas = 1 := by decide +kernel
  have hspan : onePageTouched.maps.spans 0 = ⟨mmapBase, 8192⟩ := by decide +kernel
  have hhandled := hall onePageTouched (mmapBase + 4096)
    (ordered_of_one htotal hspan (by decide) (by decide) (by decide) (by decide))
    (by decide +kernel) (by decide) (by decide) (by decide +kernel)
  obtain ⟨m', hok, hkilled, -⟩ := hhandled.inside
    ⟨0, ⟨Int.le_refl 0, by rw [htotal]; decide⟩, by rw [hspan]; decide, by rw [hspan]; decide⟩
  have hobs : (onePageTouched.pgftHandler none (mmapBase + 4096)).toOption.map killed =
      some true := by decide +kernel
  have hfalse : onePageTouched.killed = false := by decide +kernel
  rw [hok] at hobs
  rw [hfalse] at hkilled
  simp only [Except.toOption, Option.map_some, hkilled, Option.some.injEq, Bool.false_eq_true] at hobs

end Machine

end Cs537.P5
