import Cs537.P5.VmaRuns

/-!
# What a new process sees of the old table

`allocproc` sets `total_vmas` to 0 and leaves `vmas` as the previous process left it. The live
entries are written before they are read, but two searches go on behind them: the loop of
`find_mmap_addr` looks at the entry behind the last live one, and `umunmap` looks through all 32
entries. `clear_maps` tests the `ref_count` of live entries, which only `copy_maps` writes, so that
it is a remain too. As long as neither search takes what it finds there, and the tests come out the
same, two processes that start with different remains get the same answers.
-/

namespace Cs537.P5

open Cs537.Lib

/-- `umunmap` writes the mapping back to its file (`sys_mmap.c:298`). -/
def Area.WritesBack (a : Area) : Prop :=
  has a.flags mapShared ∧ ¬ has a.flags mapAnonymous ∧ has a.prot protWrite

instance (a : Area) : Decidable a.WritesBack := inferInstanceAs (Decidable (_ ∧ _ ∧ _))

namespace Table

/-! ## Taking and clearing a table -/

/-- `allocproc` (`proc.c:115`), as far as the table goes. -/
def allocproc (t : Table) : Table := { t with totalVmas := 0 }

/-- The loop of `clear_maps` (`sys_mmap.c:336-341`) that gets through to its end, `n` rounds left and
`filewrite n` what a write-back then returns. It looks at the last entry each time, also where
`umunmap` has not removed it. -/
def clearLoop (filewrite : Nat → Int) : Nat → Table → Table
  | 0, t => t
  | n + 1, t =>
    let v := t.vmas (t.totalVmas - 1)
    if v.refCount = 0 then clearLoop filewrite n (t.umunmap v.addr v.len (filewrite n)).2.1
    else clearLoop filewrite n t

/-- `clear_maps` (`sys_mmap.c:334-343`) that returns. -/
def clearMaps (t : Table) (filewrite : Nat → Int) : Table :=
  { clearLoop filewrite t.totalVmas.toNat t with totalVmas := 0 }

/-- The entry that the loop of `clear_maps` looks at. -/
def lastVma (t : Table) : Vma := t.vmas (t.totalVmas - 1)

/-- What `filewrite` returns when `umunmap` is called on an entry, after it was called on those
before it; `none` where it does not return. -/
def clearWrite (filewrite : List Area → Option Int) (before : List Area) (a : Area) : Option Int :=
  if a.WritesBack then filewrite (before ++ [a]) else some 0

/-- The loop of `clear_maps` in such a kernel, `before` the entries that `umunmap` was called on. -/
def clearLoopIn (filewrite : List Area → Option Int) :
    Nat → List Area → Table → Option (List Area × Table)
  | 0, before, t => some (before, t)
  | n + 1, before, t =>
    let v := t.lastVma
    if v.refCount = 0 then
      (clearWrite filewrite before v.toArea).bind fun written =>
        clearLoopIn filewrite n (before ++ [v.toArea]) (t.umunmap v.addr v.len written).2.1
    else clearLoopIn filewrite n before t

/-- `clear_maps` in such a kernel, if it returns: the entries that it has called `umunmap` on, and the
table. -/
def clearMapsIn (t : Table) (filewrite : List Area → Option Int) : Option (List Area × Table) :=
  (clearLoopIn filewrite t.totalVmas.toNat [] t).map fun (entries, t) =>
    (entries, { t with totalVmas := 0 })

/-- What happens to the table of a process. -/
inductive Event where
  | call (c : Call)
  | clearMaps (filewrite : List Area → Option Int)

/-- The table after an event, if the kernel returns from it. -/
def after (t : Table) : Event → Option Table
  | .call c => some (t.next c)
  | .clearMaps filewrite => (t.clearMapsIn filewrite).map Prod.snd

/-- What the process gets to see of an event. -/
inductive Answer where
  | address (a : Int)
  | result (r : Int) (freed : List Int)
  | killed
  | mapped (a : Area) (storedSize : Int)
  | cleared (entries : List Area)
  | hangs
  | nothing
  deriving DecidableEq

/-- What the process gets to see of a page fault. -/
def Fault.answer : Fault → Answer
  | .killed => .killed
  | .doMap vma => .mapped vma.toArea vma.storedSize

/-- The answer to an event: the result of `ummap` or `umunmap`, whether `pgft_handler` kills the
process or maps a page, and whether `clear_maps` returns. -/
def answer (t : Table) : Event → Answer
  | .call (.ummap addr length prot flags offset file) =>
    .address (t.ummap (i32 addr) (i32 length) prot flags offset file).1
  | .call (.umunmap addr length filewrite) =>
    let r := t.umunmap (i32 addr) (i32 length) filewrite
    .result r.1 r.2.2
  | .call (.pgft faultAddr present) => (t.pgftHandler (u32 faultAddr) present).1.answer
  | .call (.ofile _) | .call (.neighbour _) => .nothing
  | .clearMaps filewrite => ((t.clearMapsIn filewrite).map fun r => .cleared r.1).getD .hangs

/-! ## Looking at live entries only -/

/-- `ummap` gets as far as the loop of `find_mmap_addr`. -/
def SearchesGap (t : Table) (addr length : Int) (flags : UInt32) : Prop :=
  t.totalVmas < 32 ∧ (has flags mapPrivate ∨ has flags mapShared) ∧ ¬ has flags mapFixed ∧
    u32 (pgroundup (i32 (pgroundup addr + length))) ≤ kernBase ∧
    (t.checkMmapPossible addr length).1 = -1 ∧ t.totalVmas ≠ 0 ∧
    ¬ length < i32 (((t.checkMmapPossible addr length).2.vmas 0).addr - mmapBase)

instance (t : Table) (addr length : Int) (flags : UInt32) :
    Decidable (t.SearchesGap addr length flags) :=
  inferInstanceAs (Decidable (_ ∧ _ ∧ _ ∧ _ ∧ _ ∧ _ ∧ _))

/-- The search of `umunmap` finds a live entry, or none, or one of length 0, which is as good as
none. -/
def FindsLive (t : Table) (mainaddr : Int) : Prop :=
  match t.findVma mainaddr with
  | none => True
  | some i => i < t.totalVmas ∨ (t.vmas i).len = 0

instance (t : Table) (mainaddr : Int) : Decidable (t.FindsLive mainaddr) :=
  match h : t.findVma mainaddr with
  | none => isTrue (by simp [FindsLive, h])
  | some i => decidable_of_iff (i < t.totalVmas ∨ (t.vmas i).len = 0) (by simp [FindsLive, h])

/-- A call uses live entries only: the loop of `find_mmap_addr` ends at one, and so does the
search of `umunmap` if it has a result. -/
def UsesLive (t : Table) : Event → Prop
  | .call (.ummap addr length _ flags _ _) =>
    t.SearchesGap (i32 addr) (i32 length) flags →
      (t.checkMmapPossible (i32 addr) (i32 length)).2.findGap (i32 length) t.totalVmas.toNat 0 <
        t.totalVmas
  | .call (.umunmap addr _ _) => t.FindsLive (u32 (pgroundup (i32 addr)))
  | _ => True

instance (t : Table) : (e : Event) → Decidable (t.UsesLive e)
  | .call (.ummap _ _ _ _ _ _) => inferInstanceAs (Decidable (_ → _))
  | .call (.umunmap _ _ _) => inferInstanceAs (Decidable (FindsLive _ _))
  | .call (.pgft _ _) | .call (.ofile _) | .call (.neighbour _) | .clearMaps _ => isTrue trivial

/-- Each round of `clear_maps` finds a `ref_count` in both tables or in neither, and `umunmap` finds
a live entry. -/
def SameRounds (filewrite : List Area → Option Int) : Nat → List Area → Table → Table → Prop
  | 0, _, _, _ => True
  | n + 1, before, t, u =>
    (t.lastVma.refCount = 0 ↔ u.lastVma.refCount = 0) ∧
      (t.lastVma.refCount ≠ 0 → SameRounds filewrite n before t u) ∧
      (t.lastVma.refCount = 0 → t.FindsLive (u32 (pgroundup t.lastVma.addr)) ∧
        u.FindsLive (u32 (pgroundup t.lastVma.addr)) ∧
        ∀ written ∈ clearWrite filewrite before t.lastVma.toArea,
          SameRounds filewrite n (before ++ [t.lastVma.toArea])
            (t.umunmap t.lastVma.addr t.lastVma.len written).2.1
            (u.umunmap t.lastVma.addr t.lastVma.len written).2.1)

instance (filewrite : List Area → Option Int) :
    (n : Nat) → (before : List Area) → (t u : Table) → Decidable (SameRounds filewrite n before t u)
  | 0, _, _, _ => isTrue trivial
  | n + 1, before, t, u =>
    have (before : List Area) (t u : Table) : Decidable (SameRounds filewrite n before t u) :=
      instDecidableSameRounds filewrite n before t u
    have : DecidablePred fun written => SameRounds filewrite n (before ++ [t.lastVma.toArea])
        (t.umunmap t.lastVma.addr t.lastVma.len written).2.1
        (u.umunmap t.lastVma.addr t.lastVma.len written).2.1 := fun _ => inferInstance
    inferInstanceAs (Decidable (_ ∧ (_ → _) ∧ (_ → _ ∧ _ ∧ ∀ written ∈ clearWrite _ _ _, _)))

/-- What an event reads of the fields that no call writes, `stored_size` and `ref_count`, is the
same in both tables. -/
def SameRemains (t u : Table) : Event → Prop
  | .call (.pgft _ _) =>
    ∀ k < t.totalVmas.toNat, (u.vmas k).storedSize = (t.vmas k).storedSize
  | .clearMaps filewrite => SameRounds filewrite t.totalVmas.toNat [] t u
  | .call (.ummap _ _ _ _ _ _) | .call (.umunmap _ _ _) | .call (.ofile _)
  | .call (.neighbour _) => True

instance (t u : Table) : (e : Event) → Decidable (SameRemains t u e)
  | .call (.pgft _ _) => inferInstanceAs (Decidable (∀ k < t.totalVmas.toNat,
      (u.vmas k).storedSize = (t.vmas k).storedSize))
  | .clearMaps _ => inferInstanceAs (Decidable (SameRounds _ _ _ _ _))
  | .call (.ummap _ _ _ _ _ _) | .call (.umunmap _ _ _) | .call (.ofile _)
  | .call (.neighbour _) => isTrue trivial

variable {t u : Table} {n i size : Int}

/-- Two tables have the same entries from index -1 up to `n`. -/
def SameBelow (n : Int) (t u : Table) : Prop :=
  ∀ j, -1 ≤ j → j < n → (u.vmas j).toArea = (t.vmas j).toArea

theorem SameBelow.mono {m : Int} (h : SameBelow n t u) (hm : m ≤ n) : SameBelow m t u :=
  fun j h1 h2 => h j h1 (by omega)

theorem SameBelow.endOf_eq (h : SameBelow n t u) (hi : -1 ≤ i) (hin : i < n) :
    u.endOf i = t.endOf i := by
  unfold endOf
  rw [h i hi hin]

/-- Two tables that differ in their dead entries only. -/
structure Agree (t u : Table) : Prop where
  total : u.totalVmas = t.totalVmas
  nonneg : 0 ≤ t.totalVmas
  le : t.totalVmas ≤ 32
  live : SameBelow t.totalVmas t u

/-! ## Placing a mapping -/

/-- Two tables of `n` live entries after the choice of an entry: none and nothing else changed,
or the same one, with the same range. -/
structure PlacedLike (n : Int) (r r' : Int × Table) : Prop where
  index : r'.1 = r.1
  total : r.2.totalVmas = n
  total' : r'.2.totalVmas = n
  none : r.1 = -1 → SameBelow n r.2 r'.2
  range : r.1 ≠ -1 → 0 ≤ r.1 ∧ r.1 ≤ n
  others : r.1 ≠ -1 → ∀ j, -1 ≤ j → j ≤ n → j ≠ r.1 →
    (r'.2.vmas j).toArea = (r.2.vmas j).toArea
  span : r.1 ≠ -1 → (r'.2.vmas r.1).addr = (r.2.vmas r.1).addr ∧
    (r'.2.vmas r.1).len = (r.2.vmas r.1).len

/-- No entry was chosen. -/
theorem SameBelow.placedLike_none (h : SameBelow n t u) (ht : t.totalVmas = n)
    (hu : u.totalVmas = n) : PlacedLike n (-1, t) (-1, u) :=
  ⟨rfl, ht, hu, fun _ => h, fun hne => absurd rfl hne, fun hne => absurd rfl hne,
    fun hne => absurd rfl hne⟩

/-- Entry `k` was chosen and given a range, the others being the same. -/
theorem placedLike_set {k addr : Int} (ht : t.totalVmas = n) (hu : u.totalVmas = n) (h0 : 0 ≤ k)
    (hk : k ≤ n) (hsame : ∀ j, -1 ≤ j → j ≤ n → j ≠ k → (u.vmas j).toArea = (t.vmas j).toArea) :
    PlacedLike n (k, t.set k { t.vmas k with addr := addr, len := size })
      (k, u.set k { u.vmas k with addr := addr, len := size }) := by
  refine ⟨rfl, ht, hu, fun hne => by omega, fun _ => ⟨h0, hk⟩, ?_, ?_⟩
  · intro _ j h1 h2 hj
    simp only [set, Function.update_of_ne hj]
    exact hsame j h1 h2 hj
  · intro _
    simp only [set, Function.update_self, and_self]

theorem SameBelow.setupMmapArr (h : SameBelow t.totalVmas t u) (htotal : u.totalVmas = t.totalVmas)
    (hi : -1 ≤ i) (hle : i + 1 ≤ t.totalVmas) (mmapaddr : Int) :
    PlacedLike t.totalVmas (t.setupMmapArr size i mmapaddr) (u.setupMmapArr size i mmapaddr) := by
  -- the entries after the loop, of which only the chosen one may be dead
  have hshift (j : Int) (h1 : -1 ≤ j) (h2 : j ≤ t.totalVmas) (h3 : j ≠ i + 1 ∨ j < t.totalVmas) :
      (shiftUp copyMmapStruct u.vmas (t.totalVmas - (i + 1)).toNat t.totalVmas j).toArea =
        (shiftUp copyMmapStruct t.vmas (t.totalVmas - (i + 1)).toNat t.totalVmas j).toArea := by
    rw [shiftUp_apply, shiftUp_apply]
    by_cases hmoved : t.totalVmas - (t.totalVmas - (i + 1)).toNat < j ∧ j ≤ t.totalVmas
    · rw [if_pos hmoved, if_pos hmoved]
      exact h (j - 1) (by omega) (by omega)
    · rw [if_neg hmoved, if_neg hmoved]
      exact h j h1 (by omega)
  unfold Table.setupMmapArr
  simp only [htotal]
  by_cases hhigh : kernBase ≤ u32 (pgroundup (i32 (mmapaddr + size)))
  · rw [if_pos hhigh, if_pos hhigh]
    refine SameBelow.placedLike_none ?_ rfl rfl
    exact fun j h1 h2 => hshift j h1 (by omega) (.inr h2)
  · rw [if_neg hhigh, if_neg hhigh]
    exact placedLike_set rfl rfl (by omega) hle fun j h1 h2 hj => hshift j h1 h2 (.inl hj)

theorem SameBelow.checkGaps (h : SameBelow t.totalVmas t u) (htotal : u.totalVmas = t.totalVmas)
    (mmapAddr : Int) (rounds : Nat) (hi : 0 ≤ i) (hle : i + rounds ≤ t.totalVmas - 1) :
    PlacedLike t.totalVmas (t.checkGaps mmapAddr size rounds i)
      (u.checkGaps mmapAddr size rounds i) := by
  induction rounds generalizing i with
  | zero => exact h.placedLike_none rfl htotal
  | succ rounds ih =>
    rw [Table.checkGaps, Table.checkGaps, h i (by omega) (by omega),
      h.endOf_eq (by omega) (by omega), h (i + 1) (by omega) (by omega)]
    by_cases hbelow : mmapAddr ≤ (t.vmas i).addr
    · rw [if_pos hbelow, if_pos hbelow]
      exact h.placedLike_none rfl htotal
    · rw [if_neg hbelow, if_neg hbelow]
      by_cases hgap : t.endOf i < mmapAddr ∧
          i32 (mmapAddr + size) < pgroundup (t.vmas (i + 1)).addr
      · rw [if_pos hgap, if_pos hgap]
        exact h.setupMmapArr htotal (by omega) (by omega) mmapAddr
      · rw [if_neg hgap, if_neg hgap]
        exact ih (by omega) (by omega)

theorem SameBelow.checkMmapPossible (h : SameBelow t.totalVmas t u)
    (htotal : u.totalVmas = t.totalVmas) (hn : 0 ≤ t.totalVmas) (addr size : Int) :
    PlacedLike t.totalVmas (t.checkMmapPossible addr size) (u.checkMmapPossible addr size) := by
  unfold Table.checkMmapPossible
  simp only [htotal]
  rw [h.endOf_eq (by omega) (by omega)]
  by_cases hlast : t.endOf (t.totalVmas - 1) < pgroundup addr
  · rw [if_pos hlast, if_pos hlast]
    exact h.setupMmapArr htotal (by omega) (by omega) _
  · rw [if_neg hlast, if_neg hlast]
    by_cases hzero : t.totalVmas = 0
    · have hrounds : (t.totalVmas - 1).toNat = 0 := by omega
      rw [hrounds]
      exact h.placedLike_none rfl htotal
    · exact h.checkGaps htotal _ _ (Int.le_refl 0) (by omega)

theorem le_findGap (t : Table) (size : Int) (rounds : Nat) (i : Int) :
    i ≤ t.findGap size rounds i := by
  induction rounds generalizing i with
  | zero => exact Int.le_refl i
  | succ rounds ih =>
    rw [findGap]
    split
    · split
      · exact Int.le_refl i
      · have := ih (i + 1)
        omega
    · exact Int.le_refl i

/-- The loop of `find_mmap_addr` ends at the same entry, if it ends at a live one. -/
theorem SameBelow.findGap_eq (h : SameBelow n t u) (rounds : Nat) (hi : -1 ≤ i)
    (hrounds : i + rounds = n) (ht : t.findGap size rounds i < n)
    (hu : u.findGap size rounds i < n) : u.findGap size rounds i = t.findGap size rounds i := by
  induction rounds generalizing i with
  | zero => rfl
  | succ rounds ih =>
    by_cases hlast : rounds = 0
    · -- the last round looks at the first dead entry and may not go on to it
      have htle := le_findGap t size (rounds + 1) i
      have hule := le_findGap u size (rounds + 1) i
      omega
    · have hwide : u.wide size i ↔ t.wide size i := by
        unfold wide
        rw [h (i + 1) (by omega) (by omega), h.endOf_eq hi (by omega)]
      rw [findGap] at ht hu
      rw [findGap, findGap]
      rw [h (i + 1) (by omega) (by omega)] at hu ⊢
      simp only [hwide] at hu ⊢
      by_cases hused : (t.vmas (i + 1)).addr ≠ 0
      · rw [if_pos hused] at ht hu
        rw [if_pos hused, if_pos hused]
        by_cases hw : t.wide size i
        · rw [if_pos hw, if_pos hw]
        · rw [if_neg hw] at ht hu
          rw [if_neg hw, if_neg hw]
          exact ih (by omega) (by omega) ht hu
      · rw [if_neg hused, if_neg hused]

theorem SameBelow.findMmapAddr (h : SameBelow t.totalVmas t u) (size : Int)
    (htotal : u.totalVmas = t.totalVmas) (hn : 0 ≤ t.totalVmas)
    (hgap : t.totalVmas ≠ 0 → ¬ size < i32 ((t.vmas 0).addr - mmapBase) →
      t.findGap size t.totalVmas.toNat 0 < t.totalVmas ∧
        u.findGap size t.totalVmas.toNat 0 < t.totalVmas) :
    PlacedLike t.totalVmas (t.findMmapAddr size) (u.findMmapAddr size) := by
  unfold Table.findMmapAddr
  rw [htotal]
  by_cases hzero : t.totalVmas = 0
  · rw [if_pos hzero, if_pos hzero]
    by_cases hhigh : kernBase ≤ u32 (pgroundup (i32 (mmapBase + size)))
    · rw [if_pos hhigh, if_pos hhigh]
      exact h.placedLike_none rfl htotal
    · rw [if_neg hhigh, if_neg hhigh]
      exact placedLike_set rfl htotal (Int.le_refl 0) hn fun j h1 h2 hj => h j h1 (by omega)
  · rw [if_neg hzero, if_neg hzero, h 0 (by omega) (by omega)]
    by_cases hfront : size < i32 ((t.vmas 0).addr - mmapBase)
    · rw [if_pos hfront, if_pos hfront]
      exact h.setupMmapArr htotal (by omega) (by omega) _
    · rw [if_neg hfront, if_neg hfront]
      obtain ⟨ht, hu⟩ := hgap hzero hfront
      have hle := le_findGap t size t.totalVmas.toNat 0
      simp only [h.findGap_eq t.totalVmas.toNat (by omega) (by omega) ht hu]
      rw [h.endOf_eq (by omega) ht]
      by_cases hhigh : kernBase < u32 (u32 (t.endOf (t.findGap size t.totalVmas.toNat 0)) + size)
      · rw [if_pos hhigh, if_pos hhigh]
        exact h.placedLike_none rfl htotal
      · rw [if_neg hhigh, if_neg hhigh]
        exact h.setupMmapArr htotal (by omega) (by omega) _

theorem SameBelow.chooseEntry (h : SameBelow t.totalVmas t u)
    (htotal : u.totalVmas = t.totalVmas) (hn : 0 ≤ t.totalVmas) {addr length : Int}
    {flags : UInt32}
    (ht : ¬ has flags mapFixed → u32 (pgroundup (i32 (pgroundup addr + length))) ≤ kernBase →
      (t.checkMmapPossible addr length).1 = -1 → t.totalVmas ≠ 0 →
      ¬ length < i32 (((t.checkMmapPossible addr length).2.vmas 0).addr - mmapBase) →
      (t.checkMmapPossible addr length).2.findGap length t.totalVmas.toNat 0 < t.totalVmas ∧
        (u.checkMmapPossible addr length).2.findGap length t.totalVmas.toNat 0 < t.totalVmas) :
    PlacedLike t.totalVmas (t.chooseEntry addr length flags) (u.chooseEntry addr length flags) := by
  have hcheck := h.checkMmapPossible htotal hn addr length
  unfold Table.chooseEntry
  simp only
  by_cases hfixed : has flags mapFixed = true
  · rw [if_pos hfixed, if_pos hfixed]
    by_cases hbad : addr = 0 ∨ addr < mmapBase ∨
        kernBase < u32 (pgroundup (i32 (pgroundup addr + length)))
    · rw [if_pos hbad, if_pos hbad]
      exact h.placedLike_none rfl htotal
    · rw [if_neg hbad, if_neg hbad]
      split
      · exact h.placedLike_none rfl htotal
      · exact hcheck
  · rw [if_neg hfixed, if_neg hfixed]
    by_cases hhigh : kernBase < u32 (pgroundup (i32 (pgroundup addr + length)))
    · rw [if_pos hhigh, if_pos hhigh]
      exact h.placedLike_none rfl htotal
    · rw [if_neg hhigh, if_neg hhigh, hcheck.index]
      by_cases hfound : (t.checkMmapPossible addr length).1 ≠ -1
      · rw [if_pos hfound, if_pos hfound]
        exact hcheck
      · rw [if_neg hfound, if_neg hfound]
        rw [not_not] at hfound
        have hsame := hcheck.none hfound
        rw [← hcheck.total] at hsame
        have hfind := hsame.findMmapAddr length
          (hcheck.total'.trans hcheck.total.symm) (by rw [hcheck.total]; exact hn)
          (by
            rw [hcheck.total]
            intro hzero hfront
            exact ht hfixed (by omega) hfound hzero hfront)
        rw [hcheck.total] at hfind
        exact hfind

/-- Filling the chosen entry makes it live. -/
theorem PlacedLike.fillEntry {r r' : Int × Table} (h : PlacedLike n r r') (hne : r.1 ≠ -1)
    (hroom : n < 32) (prot flags : UInt32) (offset : Int) (file : UInt32) :
    (r'.2.fillEntry r'.1 prot flags offset file).1 = (r.2.fillEntry r.1 prot flags offset file).1 ∧
      Agree (r.2.fillEntry r.1 prot flags offset file).2
        (r'.2.fillEntry r'.1 prot flags offset file).2 := by
  obtain ⟨h0, hle⟩ := h.range hne
  obtain ⟨haddr, hlen⟩ := h.span hne
  have htotal := h.total
  have htotal' := h.total'
  rw [h.index]
  unfold Table.fillEntry
  simp only [set, Function.update_self]
  refine ⟨haddr, ?_, ?_, ?_, ?_⟩
  · simp only
    omega
  · simp only
    omega
  · simp only
    omega
  · intro j h1 h2
    simp only at h2 ⊢
    by_cases hj : j = r.1
    · rw [hj, Function.update_self, Function.update_self, haddr, hlen]
    · rw [Function.update_of_ne hj, Function.update_of_ne hj]
      exact h.others hne j h1 (by omega) hj

theorem Agree.ummap (h : Agree t u) {addr length : Int} {flags : UInt32}
    (ht : t.SearchesGap addr length flags →
      (t.checkMmapPossible addr length).2.findGap length t.totalVmas.toNat 0 < t.totalVmas)
    (hu : u.SearchesGap addr length flags →
      (u.checkMmapPossible addr length).2.findGap length u.totalVmas.toNat 0 < u.totalVmas)
    (prot : UInt32) (offset : Int) (file : UInt32) :
    (u.ummap addr length prot flags offset file).1 =
        (t.ummap addr length prot flags offset file).1 ∧
      Agree (t.ummap addr length prot flags offset file).2
        (u.ummap addr length prot flags offset file).2 := by
  unfold Table.ummap
  rw [h.total]
  by_cases hfull : 32 ≤ t.totalVmas
  · rw [if_pos hfull, if_pos hfull]
    exact ⟨rfl, h⟩
  · rw [if_neg hfull, if_neg hfull]
    by_cases hflags : ¬ has flags mapPrivate ∧ ¬ has flags mapShared
    · rw [if_pos hflags, if_pos hflags]
      exact ⟨rfl, h⟩
    · rw [if_neg hflags, if_neg hflags]
      have hkind : has flags mapPrivate ∨ has flags mapShared := by
        by_contra hno
        rw [not_or] at hno
        exact hflags hno
      have hcheck := h.live.checkMmapPossible h.total h.nonneg addr length
      have hplaced : PlacedLike t.totalVmas (t.chooseEntry addr length flags)
          (u.chooseEntry addr length flags) := by
        refine h.live.chooseEntry h.total h.nonneg ?_
        intro hfixed hlow hfound hzero hfront
        refine ⟨ht ⟨by omega, hkind, hfixed, hlow, hfound, hzero, hfront⟩, ?_⟩
        rw [← h.total]
        refine hu ⟨by rw [h.total]; omega, hkind, hfixed, hlow, hcheck.index.trans hfound,
          by rw [h.total]; exact hzero, ?_⟩
        rw [hcheck.none hfound 0 (by omega) (by have := h.nonneg; omega)]
        exact hfront
      simp only [hplaced.index]
      by_cases hnone : (t.chooseEntry addr length flags).1 = -1
      · rw [if_pos hnone, if_pos hnone]
        have htotal := hplaced.total
        have hle := h.le
        have hn := h.nonneg
        refine ⟨rfl, hplaced.total'.trans htotal.symm, ?_, ?_, ?_⟩
        · simp only
          omega
        · simp only
          omega
        · simp only [htotal]
          exact hplaced.none hnone
      · rw [if_neg hnone, if_neg hnone]
        have hfill := hplaced.fillEntry hnone (by omega) prot flags offset file
        rw [hplaced.index] at hfill
        exact hfill

/-! ## Removing a mapping -/

/-- An entry that the search finds among the live ones is found in the other table too. -/
theorem SameBelow.findVma_eq (h : SameBelow n t u) {mainaddr : Int}
    (hfind : t.findVma mainaddr = some i) (hi : i < n) : u.findVma mainaddr = some i := by
  unfold findVma at hfind ⊢
  apply findFrom_congr hfind
  intro l h0 hle
  rw [h l (by omega) (by omega)]

theorem SameBelow.symm (h : SameBelow n t u) : SameBelow n u t :=
  fun j h1 h2 => (h j h1 h2).symm

/-- Where no live entry is found, `umunmap` fails. -/
theorem umunmap_of_none {addr : Int} (hlive : t.FindsLive (u32 (pgroundup addr)))
    (hnone : ∀ i, t.findVma (u32 (pgroundup addr)) = some i → i < t.totalVmas →
      (t.vmas i).len = 0) (length filewrite : Int) :
    t.umunmap addr length filewrite = (-1, t, []) := by
  unfold Table.umunmap
  simp only
  unfold FindsLive at hlive
  cases hfind : t.findVma (u32 (pgroundup addr)) with
  | none => rfl
  | some i =>
    rw [hfind] at hlive
    have hlen : (t.vmas i).len = 0 := by
      rcases hlive with hi | hlen
      · exact hnone i hfind hi
      · exact hlen
    simp only [if_pos hlen]

/-- The entries after entry `i` was taken out. -/
theorem SameBelow.shiftDown (h : SameBelow n t u) (h0 : 0 ≤ i) :
    SameBelow (n - 1)
      { vmas := Lib.shiftDown copyMmapStruct (fun x => x.addr ≠ 0)
          (t.set i (zeroMmapRegionStruct (t.vmas i))).vmas (32 - i).toNat i
        totalVmas := t.totalVmas - 1 }
      { vmas := Lib.shiftDown copyMmapStruct (fun x => x.addr ≠ 0)
          (u.set i (zeroMmapRegionStruct (u.vmas i))).vmas (32 - i).toNat i
        totalVmas := u.totalVmas - 1 } := by
  intro j h1 h2
  refine (shiftDown_rel (R := fun a b : Vma => a.toArea = b.toArea) ?_ ?_ (k := -1) (n := n)
    (by omega) ?_ (32 - i).toNat h1 h2).symm
  · intro a a' b b' hb
    exact hb
  · intro a a' ha
    simp only [ha]
  · intro l hl1 hl2
    simp only [set]
    by_cases hli : l = i
    · rw [hli, Function.update_self, Function.update_self]
      rfl
    · rw [Function.update_of_ne hli, Function.update_of_ne hli]
      exact (h l hl1 hl2).symm

/-- Any slot may be overwritten in both tables. -/
theorem Agree.overwrite (h : Agree t u) (i : Int) {v w : Vma} (hvw : w.toArea = v.toArea) :
    Agree (t.set i v) (u.set i w) := by
  refine ⟨h.total, h.nonneg, h.le, ?_⟩
  intro j h1 h2
  simp only [set] at h2 ⊢
  by_cases hj : j = i
  · rw [hj, Function.update_self, Function.update_self, hvw]
  · rw [Function.update_of_ne hj, Function.update_of_ne hj]
    exact h.live j h1 h2

theorem Agree.umunmap (h : Agree t u) {addr : Int} (ht : t.FindsLive (u32 (pgroundup addr)))
    (hu : u.FindsLive (u32 (pgroundup addr))) (length filewrite : Int) :
    (u.umunmap addr length filewrite).1 = (t.umunmap addr length filewrite).1 ∧
      (u.umunmap addr length filewrite).2.2 = (t.umunmap addr length filewrite).2.2 ∧
      Agree (t.umunmap addr length filewrite).2.1 (u.umunmap addr length filewrite).2.1 := by
  have hn := h.nonneg
  have hle := h.le
  by_cases hlive : ∃ i, t.findVma (u32 (pgroundup addr)) = some i ∧ i < t.totalVmas
  · obtain ⟨i, hfind, hi⟩ := hlive
    have hfind' := h.live.findVma_eq hfind hi
    obtain ⟨h0, -⟩ := findFrom_eq_some hfind
    simp only [Table.umunmap, hfind, hfind']
    rw [h.live i (by omega) hi]
    by_cases hlen : (t.vmas i).len = 0
    · rw [if_pos hlen, if_pos hlen]
      exact ⟨rfl, rfl, h⟩
    · rw [if_neg hlen, if_neg hlen]
      by_cases hwrite : has (t.vmas i).flags mapShared ∧ ¬ has (t.vmas i).flags mapAnonymous ∧
          has (t.vmas i).prot protWrite ∧ filewrite < 0
      · rw [if_pos hwrite, if_pos hwrite]
        exact ⟨rfl, rfl, h⟩
      · rw [if_neg hwrite, if_neg hwrite]
        by_cases hall : (t.vmas i).len ≤ pgroundup length
        · rw [if_pos hall, if_pos hall]
          have hsame := h.live.shiftDown h0
          have htotal := h.total
          refine ⟨rfl, rfl, ?_, ?_, ?_, hsame⟩
          · simp only [set]
            omega
          · simp only [set]
            omega
          · simp only [set]
            omega
        · rw [if_neg hall, if_neg hall]
          exact ⟨rfl, rfl, h.overwrite i rfl⟩
  · have hnone : ∀ i, t.findVma (u32 (pgroundup addr)) = some i → i < t.totalVmas →
        (t.vmas i).len = 0 := fun i hfind hi => absurd ⟨i, hfind, hi⟩ hlive
    have hnone' : ∀ i, u.findVma (u32 (pgroundup addr)) = some i → i < u.totalVmas →
        (u.vmas i).len = 0 := by
      intro i hfind hi
      rw [h.total] at hi
      exact absurd ⟨i, h.live.symm.findVma_eq hfind hi, hi⟩ hlive
    rw [umunmap_of_none ht hnone, umunmap_of_none hu hnone']
    exact ⟨rfl, rfl, h⟩

/-! ## Page faults -/

theorem Agree.covering_eq (h : Agree t u) (faultAddr : Int) :
    u.covering faultAddr = t.covering faultAddr := by
  have hn := h.nonneg
  unfold covering
  rw [h.total]
  apply findFrom_congr_range
  intro l h0 hl
  rw [h.live l (by omega) (by omega)]

theorem Agree.growable_iff (h : Agree t u) (faultAddr : Int) :
    u.growable faultAddr ↔ t.growable faultAddr := by
  unfold growable
  rw [h.total]
  apply and_congr_right
  intro hpos
  rw [h.live 0 (by omega) hpos]
  apply and_congr_right
  intro _
  by_cases hone : t.totalVmas - 1 = 0
  · simp only [hone, true_or]
  · rw [h.live 1 (by omega) (by omega)]

theorem Agree.grown (h : Agree t u) (hpos : 0 < t.totalVmas) : Agree t.grown u.grown := by
  refine h.overwrite 0 ?_
  simp only [h.live 0 (by omega) hpos]

theorem Agree.pgftHandler (h : Agree t u) (faultAddr : Int) (present : Bool)
    (hstored : ∀ k < t.totalVmas.toNat, (u.vmas k).storedSize = (t.vmas k).storedSize) :
    (u.pgftHandler faultAddr present).1.answer = (t.pgftHandler faultAddr present).1.answer ∧
      Agree (t.pgftHandler faultAddr present).2 (u.pgftHandler faultAddr present).2 := by
  have hsame (i : Int) (h0 : 0 ≤ i) (hi : i < t.totalVmas) :
      (u.vmas i).storedSize = (t.vmas i).storedSize := by
    have hk := hstored i.toNat (by omega)
    rwa [Int.toNat_of_nonneg h0] at hk
  unfold Table.pgftHandler
  by_cases hrange : kernBase ≤ faultAddr ∨ faultAddr < mmapBase
  · rw [if_pos hrange, if_pos hrange]
    exact ⟨rfl, h⟩
  · rw [if_neg hrange, if_neg hrange, h.covering_eq]
    cases hcover : t.covering faultAddr with
    | some i =>
      obtain ⟨h0, hi, -⟩ := findFrom_eq_some hcover
      have hn := h.nonneg
      have hlive := h.live i (by omega) (by omega)
      simp only [hlive]
      by_cases hpresent : present ∧ ¬ has (t.vmas i).flags mapGrowsup ∧
          ¬ has (t.vmas i).flags mapShared
      · rw [if_pos hpresent, if_pos hpresent]
        exact ⟨rfl, h⟩
      · rw [if_neg hpresent, if_neg hpresent]
        refine ⟨?_, h⟩
        simp only [Fault.answer, hlive, hsame i (by omega) (by omega)]
    | none =>
      simp only [h.growable_iff]
      by_cases hgrow : t.growable faultAddr
      · rw [if_pos hgrow, if_pos hgrow]
        have hgrown := h.grown hgrow.1
        have hfirst : (u.grown.vmas 0).storedSize = (t.grown.vmas 0).storedSize := by
          simp only [Table.grown, set, Function.update_self]
          exact hsame 0 (Int.le_refl 0) hgrow.1
        refine ⟨?_, hgrown⟩
        simp only [Fault.answer, hgrown.live 0 (by omega) hgrow.1, hfirst]
      · rw [if_neg hgrow, if_neg hgrow]
        exact ⟨rfl, h⟩

/-! ## Clearing the table -/

/-- Both kernels come back with tables that agree, or neither does. -/
abbrev AgreeIf : Option Table → Option Table → Prop := Option.Rel Agree

theorem AgreeIf.total_eq {o o' : Option Table} (h : AgreeIf o o') :
    o'.map totalVmas = o.map totalVmas := by
  cases h with
  | none => rfl
  | some hagree => exact congrArg some hagree.total

/-- The rounds left look at their own results only. -/
theorem clearLoop_congr {filewrite filewrite' : Nat → Int} {rounds : Nat} (t : Table)
    (h : ∀ n < rounds, filewrite' n = filewrite n) :
    clearLoop filewrite' rounds t = clearLoop filewrite rounds t := by
  induction rounds generalizing t with
  | zero => rfl
  | succ rounds ih =>
    have hrest (t : Table) := ih t fun n hn => h n (Nat.lt_succ_of_lt hn)
    rw [clearLoop, clearLoop, h rounds (Nat.lt_succ_self rounds)]
    simp only [hrest]

theorem clearLoop_of_returns {filewrite : List Area → Option Int} {rounds : Nat}
    {before : List Area} {r : List Area × Table}
    (h : clearLoopIn filewrite rounds before t = some r) :
    ∃ results, clearLoop results rounds t = r.2 := by
  induction rounds generalizing t before with
  | zero =>
    cases h
    exact ⟨fun _ => 0, rfl⟩
  | succ rounds ih =>
    rw [clearLoopIn] at h
    by_cases hzero : t.lastVma.refCount = 0
    · rw [if_pos hzero] at h
      obtain ⟨written, -, hrest⟩ := Option.bind_eq_some_iff.mp h
      obtain ⟨results, hresults⟩ := ih hrest
      refine ⟨Function.update results rounds written, ?_⟩
      rw [clearLoop, Function.update_self, ← hresults]
      refine (if_pos hzero).trans (clearLoop_congr _ ?_)
      intro n hn
      exact Function.update_of_ne (Nat.ne_of_lt hn) _ _
    · rw [if_neg hzero] at h
      obtain ⟨results, hresults⟩ := ih h
      exact ⟨results, (if_neg hzero).trans hresults⟩

/-- Where it returns, `clear_maps` leaves what it leaves with the results that it has met. -/
theorem clearMaps_of_returns {filewrite : List Area → Option Int} {r : List Area × Table}
    (h : t.clearMapsIn filewrite = some r) : ∃ results, t.clearMaps results = r.2 := by
  obtain ⟨s, hs, rfl⟩ := Option.map_eq_some_iff.mp h
  obtain ⟨results, hresults⟩ := clearLoop_of_returns hs
  exact ⟨results, by rw [clearMaps, hresults]⟩

/-- The rounds of `clear_maps` go alike in both tables. -/
theorem Agree.clearLoopIn (h : Agree t u) (filewrite : List Area → Option Int) {rounds : Nat}
    {before : List Area} (hsame : SameRounds filewrite rounds before t u) :
    Option.Rel (fun r r' => r'.1 = r.1 ∧ Agree r.2 r'.2) (clearLoopIn filewrite rounds before t)
      (clearLoopIn filewrite rounds before u) := by
  induction rounds generalizing t u before with
  | zero => exact .some ⟨rfl, h⟩
  | succ rounds ih =>
    have hn := h.nonneg
    have hlast : u.lastVma.toArea = t.lastVma.toArea := by
      unfold lastVma
      rw [h.total]
      exact h.live (t.totalVmas - 1) (by omega) (by omega)
    obtain ⟨href, hround⟩ := hsame
    rw [Table.clearLoopIn, Table.clearLoopIn]
    simp only [← href, hlast]
    by_cases hzero : t.lastVma.refCount = 0
    · rw [if_pos hzero, if_pos hzero]
      obtain ⟨ht, hu, hrest⟩ := hround.2 hzero
      cases hwrite : clearWrite filewrite before t.lastVma.toArea with
      | none => exact .none
      | some written =>
        simp only [Option.bind_some]
        exact ih (h.umunmap ht hu _ written).2.2 (hrest written hwrite)
    · rw [if_neg hzero, if_neg hzero]
      exact ih h (hround.1 hzero)

/-- `clear_maps` returns in both tables or in neither. -/
theorem Agree.clearMaps (h : Agree t u) (filewrite : List Area → Option Int)
    (hsame : SameRounds filewrite t.totalVmas.toNat [] t u) :
    u.answer (.clearMaps filewrite) = t.answer (.clearMaps filewrite) ∧
      AgreeIf (t.after (.clearMaps filewrite)) (u.after (.clearMaps filewrite)) := by
  have hloop := h.clearLoopIn filewrite hsame
  simp only [answer, after, Table.clearMapsIn, h.total]
  cases ht : Table.clearLoopIn filewrite t.totalVmas.toNat [] t with
  | none =>
    cases hu : Table.clearLoopIn filewrite t.totalVmas.toNat [] u with
    | none => exact ⟨rfl, .none⟩
    | some r' =>
      rw [ht, hu] at hloop
      cases hloop
  | some r =>
    cases hu : Table.clearLoopIn filewrite t.totalVmas.toNat [] u with
    | none =>
      rw [ht, hu] at hloop
      cases hloop
    | some r' =>
      rw [ht, hu] at hloop
      cases hloop with
      | some hr =>
        obtain ⟨hentries, hagree⟩ := hr
        refine ⟨?_, .some ⟨rfl, Int.le_refl 0, (by decide : (0 : Int) ≤ 32), ?_⟩⟩
        · simp only [Option.map_some, hentries]
        · intro j h1 h2
          have h2' : j < 0 := h2
          exact hagree.live j h1 (by have := hagree.nonneg; omega)

/-! ## Two runs -/

/-- An event that uses live entries only has the same answer in both tables and keeps them in
agreement. -/
theorem Agree.after (h : Agree t u) {e : Event} (ht : t.UsesLive e) (hu : u.UsesLive e)
    (hsame : SameRemains t u e) :
    u.answer e = t.answer e ∧ AgreeIf (t.after e) (u.after e) := by
  cases e with
  | clearMaps filewrite => exact h.clearMaps filewrite hsame
  | call c =>
    cases c with
    | ummap addr length prot flags offset file =>
      obtain ⟨hresult, hagree⟩ := h.ummap ht hu prot offset file
      exact ⟨congrArg Answer.address hresult, .some hagree⟩
    | umunmap addr length filewrite =>
      obtain ⟨hresult, hpages, hagree⟩ := h.umunmap ht hu (i32 length) filewrite
      exact ⟨congrArg₂ Answer.result hresult hpages, .some hagree⟩
    | pgft faultAddr present =>
      obtain ⟨hanswer, hagree⟩ := h.pgftHandler (u32 faultAddr) present hsame
      exact ⟨hanswer, .some hagree⟩
    | ofile below => exact ⟨rfl, .some (h.overwrite (-1) rfl)⟩
    | neighbour above =>
      refine ⟨rfl, .some ?_⟩
      simp only [next, h.total]
      exact h.overwrite 32 rfl

/-- The same event in two tables, of kernels that may hang. -/
def twin : Option Table × Option Table → Event → Option (Option Table × Option Table) :=
  fun s e => some (s.1.bind (after · e), s.2.bind (after · e))

/-- The event uses live entries only in both tables, and of their remains only what is the same. -/
def BothUseLive (s : Option Table × Option Table) (e : Event) : Prop :=
  ∀ t ∈ s.1, ∀ u ∈ s.2, t.UsesLive e ∧ u.UsesLive e ∧ SameRemains t u e

/-- The event has the same answer in both tables and leaves the same `total_vmas`, or hangs in
both. -/
def SameAnswer (s : Option Table × Option Table) (e : Event) (s' : Option Table × Option Table) :
    Prop :=
  s.2.map (answer · e) = s.1.map (answer · e) ∧ s'.2.map totalVmas = s'.1.map totalVmas

/-- Two tables that differ in the contents of `vmas` only, taken by `allocproc`: in every sequence
of events that use live entries only, and of the remains only what is the same, each event has the
same answer in both and leaves the same `total_vmas`. -/
theorem new_process_sees_clean_table {es : List Event} {s : Option Table × Option Table}
    (hdiffer : ∀ i, ¬ (0 ≤ i ∧ i < 32) → u.vmas i = t.vmas i)
    (run : Run (guarded BothUseLive (stepOf twin)) (some t.allocproc, some u.allocproc) es s) :
    Run (outcome SameAnswer (stepOf twin)) (some t.allocproc, some u.allocproc) es s := by
  have hinit : Agree t.allocproc u.allocproc := by
    refine ⟨rfl, Int.le_refl 0, (by decide : (0 : Int) ≤ 32), ?_⟩
    intro j h1 h2
    simp only [Table.allocproc] at h2 ⊢
    rw [hdiffer j (by omega)]
  refine (run.imp (fun s => AgreeIf s.1 s.2) (.some hinit) ?_).2
  rintro ⟨t, u⟩ e s' hagree ⟨hlive, hstep⟩
  obtain rfl := Option.some.inj hstep
  cases hagree with
  | none => exact ⟨.none, ⟨rfl, rfl⟩, rfl⟩
  | @some t u hagree =>
    obtain ⟨ht, hu, hsame⟩ := hlive t rfl u rfl
    obtain ⟨hanswer, hafter⟩ := Agree.after hagree ht hu hsame
    exact ⟨hafter, ⟨congrArg some hanswer, AgreeIf.total_eq hafter⟩, rfl⟩

/-- A table whose first entry still has a mapping of one page, and this `ref_count`. -/
def usedTable (refCount : Int) : Table :=
  freshTable.set 0 ⟨⟨mmapBase, 4096, pteU, mapPrivate, 0, 0⟩, 0, 0, refCount⟩

theorem usedTable_differs (refCount i : Int) (hi : ¬ (0 ≤ i ∧ i < 32)) :
    (usedTable refCount).vmas i = freshTable.vmas i :=
  Function.update_of_ne (by omega) _ _

instance (s : Option Table × Option Table) (e : Event) : Decidable (BothUseLive s e) :=
  inferInstanceAs (Decidable (∀ t ∈ s.1, ∀ u ∈ s.2, _))

/-- The theorem at a process that maps two pages, touches one, unmaps the first and ends. -/
theorem new_process_sees_clean_table_one_page :
    ∃ s, Run (outcome SameAnswer (stepOf twin))
      (some freshTable.allocproc, some (usedTable 0).allocproc)
      [.call mapPage, .call mapPage, .call (.pgft mmapBase false),
        .call (.umunmap mmapBase 4096 0), .clearMaps fun _ => none] s := by
  have hobs : (runOf (fun s e => if BothUseLive s e then twin s e else none)
      (some freshTable.allocproc, some (usedTable 0).allocproc)
      [.call mapPage, .call mapPage, .call (.pgft mmapBase false),
        .call (.umunmap mmapBase 4096 0), .clearMaps fun _ => none]).isSome = true := by
    decide +kernel
  obtain ⟨s, hs⟩ := Option.isSome_iff_exists.mp hobs
  exact ⟨s, new_process_sees_clean_table (usedTable_differs 0) (run_guarded_of_runOf hs)⟩

/-- A process that has mapped nothing unmaps the page at `MMAPBASE`: in a zeroed table that fails,
in one with the old mapping it succeeds and leaves `total_vmas` at -1. -/
theorem new_process_unmaps_old_mapping :
    (∀ i, ¬ (0 ≤ i ∧ i < 32) → (usedTable 1).vmas i = freshTable.vmas i) ∧
      ∃ s, Run (stepOf twin) (some freshTable.allocproc, some (usedTable 1).allocproc)
        [.call (.umunmap mmapBase 4096 0)] s ∧
        freshTable.allocproc.answer (.call (.umunmap mmapBase 4096 0)) = .result (-1) [] ∧
        (usedTable 1).allocproc.answer (.call (.umunmap mmapBase 4096 0)) = .result 0 [mmapBase] ∧
        s.1.map totalVmas = some 0 ∧ s.2.map totalVmas = some (-1) ∧
        ¬ SameAnswer (some freshTable.allocproc, some (usedTable 1).allocproc)
          (.call (.umunmap mmapBase 4096 0)) s := by
  refine ⟨usedTable_differs 1, _, Run.snoc Run.nil rfl, ?_, ?_, ?_, ?_, ?_⟩
  · decide +kernel
  · decide +kernel
  · decide +kernel
  · decide +kernel
  · intro h
    exact absurd h.2 (by decide +kernel)

end Table

end Cs537.P5
