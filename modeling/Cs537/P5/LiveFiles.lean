import Cs537.P5.Stale

/-!
# The files of the live mappings

`ummap` asks `setup_mmap_arr` for an entry once or twice: first at the hint, then, if that fails
and the mapping is not `MAP_FIXED`, where `find_mmap_addr` says. An attempt whose range ends above
`KERNBASE` fails after the entries behind it have been moved, and one behind an entry that is not
live makes that entry live. When neither happens, `ummap` adds one file to those of the live
entries or leaves them alone. `umunmap` takes one out, as long as the loop that closes the gap does
not stop at a live entry with address 0.
-/

namespace Cs537.P5

open Cs537.Lib

namespace Table

/-- The files that the live mappings hold, 0 for none. -/
def liveFiles (t : Table) : List UInt32 := entries (fun i => (t.vmas i).file) t.totalVmas

/-! ## Where `ummap` puts an entry -/

/-- A range that `setup_mmap_arr` accepts. -/
def Fits (size mmapaddr : Int) : Prop := u32 (pgroundup (i32 (mmapaddr + size))) < kernBase

instance (size mmapaddr : Int) : Decidable (Fits size mmapaddr) :=
  inferInstanceAs (Decidable (_ < _))

/-- The entry behind which the loop of `check_mmap_possible` asks for a new one. -/
def gapIndex (t : Table) (mmapAddr size : Int) : Nat → Int → Option Int
  | 0, _ => none
  | n + 1, i =>
    if mmapAddr ≤ (t.vmas i).addr then none
    else if t.endOf i < mmapAddr ∧ i32 (mmapAddr + size) < pgroundup (t.vmas (i + 1)).addr then
      some i
    else gapIndex t mmapAddr size n (i + 1)

/-- The entry behind which `check_mmap_possible` asks for a new one. -/
def checkIndex (t : Table) (addr size : Int) : Option Int :=
  if t.endOf (t.totalVmas - 1) < pgroundup addr then some (t.totalVmas - 1)
  else t.gapIndex (pgroundup addr) size (t.totalVmas - 1).toNat 0

/-- The entry behind which `find_mmap_addr` asks for a new one, and its address. -/
def findPlace (t : Table) (size : Int) : Option (Int × Int) :=
  if t.totalVmas = 0 then some (-1, mmapBase)
  else if size < i32 ((t.vmas 0).addr - mmapBase) then some (-1, mmapBase)
  else
    let i := t.findGap size t.totalVmas.toNat 0
    let mmapaddr := u32 (t.endOf i)
    if kernBase < u32 (mmapaddr + size) then none else some (i, i32 mmapaddr)

/-- The hint of `ummap` is taken. -/
def TakesHint (t : Table) (addr length : Int) : Prop :=
  (t.checkIndex addr length).isSome ∧ Fits length (pgroundup addr)

instance (t : Table) (addr length : Int) : Decidable (t.TakesHint addr length) :=
  inferInstanceAs (Decidable (_ ∧ _))

/-- No attempt to place the mapping moves entries in vain, and none is behind an entry that is not
live. -/
structure Tidy (t : Table) (addr length : Int) (flags : UInt32) : Prop where
  check : ∀ i ∈ t.checkIndex addr length, Fits length (pgroundup addr) ∨ t.totalVmas ≤ i + 1
  find : ¬ has flags mapFixed → ¬ t.TakesHint addr length →
    ∀ x ∈ t.findPlace length, x.1 < t.totalVmas ∧ (Fits length x.2 ∨ t.totalVmas ≤ x.1 + 1)

/-- One of the attempts succeeds. -/
def HasPlace (t : Table) (addr length : Int) (flags : UInt32) : Prop :=
  t.TakesHint addr length ∨ ¬ has flags mapFixed ∧ ∃ x ∈ t.findPlace length, Fits length x.2

instance (t : Table) (addr length : Int) (flags : UInt32) :
    Decidable (t.Tidy addr length flags) :=
  decidable_of_iff ((∀ i ∈ t.checkIndex addr length,
      Fits length (pgroundup addr) ∨ t.totalVmas ≤ i + 1) ∧
    (¬ has flags mapFixed → ¬ t.TakesHint addr length → ∀ x ∈ t.findPlace length,
      x.1 < t.totalVmas ∧ (Fits length x.2 ∨ t.totalVmas ≤ x.1 + 1)))
    ⟨fun h => ⟨h.1, h.2⟩, fun h => ⟨h.check, h.find⟩⟩

instance (t : Table) (addr length : Int) (flags : UInt32) :
    Decidable (t.HasPlace addr length flags) :=
  inferInstanceAs (Decidable (_ ∨ _ ∧ _))

variable {t : Table} {addr length : Int} {prot flags : UInt32} {offset : Int} {file : UInt32}

theorem checkGaps_eq (t : Table) (a size : Int) (n : Nat) (i : Int) :
    t.checkGaps a size n i = match t.gapIndex a size n i with
      | none => (-1, t)
      | some j => t.setupMmapArr size j a := by
  induction n generalizing i with
  | zero => rfl
  | succ n ih =>
    rw [checkGaps, gapIndex]
    by_cases hpast : a ≤ (t.vmas i).addr
    · rw [if_pos hpast, if_pos hpast]
    · rw [if_neg hpast, if_neg hpast]
      by_cases hgap : t.endOf i < a ∧ i32 (a + size) < pgroundup (t.vmas (i + 1)).addr
      · rw [if_pos hgap, if_pos hgap]
      · rw [if_neg hgap, if_neg hgap]
        exact ih (i + 1)

theorem gapIndex_mem {a size : Int} {n : Nat} {i j : Int} (h : t.gapIndex a size n i = some j) :
    i ≤ j ∧ j < i + n := by
  induction n generalizing i with
  | zero => cases h
  | succ n ih =>
    rw [gapIndex] at h
    split at h
    · cases h
    · split at h
      · cases h
        omega
      · have := ih h
        omega

theorem checkMmapPossible_eq (t : Table) (addr size : Int) :
    t.checkMmapPossible addr size = match t.checkIndex addr size with
      | none => (-1, t)
      | some i => t.setupMmapArr size i (pgroundup addr) := by
  unfold checkMmapPossible checkIndex
  simp only
  by_cases hlast : t.endOf (t.totalVmas - 1) < pgroundup addr
  · rw [if_pos hlast, if_pos hlast]
  · rw [if_neg hlast, if_neg hlast]
    exact checkGaps_eq t _ _ _ _

theorem checkIndex_mem (h0 : 0 ≤ t.totalVmas) {i : Int} (h : t.checkIndex addr length = some i) :
    -1 ≤ i ∧ i < t.totalVmas := by
  unfold checkIndex at h
  split at h
  · cases h
    omega
  · have := gapIndex_mem h
    omega

theorem findMmapAddr_eq (t : Table) (size : Int) :
    t.findMmapAddr size = match t.findPlace size with
      | none => (-1, t)
      | some x => t.setupMmapArr size x.1 x.2 := by
  unfold findMmapAddr findPlace
  by_cases hzero : t.totalVmas = 0
  · -- the entry at `MMAPBASE` of an empty table, which `setup_mmap_arr` would make as well
    have hbase : pgroundup mmapBase = mmapBase := by decide
    obtain ⟨vmas, totalVmas⟩ := t
    obtain rfl : totalVmas = 0 := hzero
    rw [if_pos rfl, if_pos rfl, hbase]
    rfl
  · rw [if_neg hzero, if_neg hzero]
    by_cases hfront : size < i32 ((t.vmas 0).addr - mmapBase)
    · rw [if_pos hfront, if_pos hfront]
    · rw [if_neg hfront, if_neg hfront]
      simp only
      split <;> rfl

theorem findPlace_mem {size : Int} {x : Int × Int} (h : t.findPlace size = some x) : -1 ≤ x.1 := by
  unfold findPlace at h
  split at h
  · cases h
    decide
  · split at h
    · cases h
      decide
    · simp only at h
      split at h
      · cases h
      · cases h
        have := le_findGap t size t.totalVmas.toNat 0
        simp only
        omega

/-- `setup_mmap_arr` on a range that fits makes room for an entry. -/
theorem setupMmapArr_fits {size i a : Int} (hfits : Fits size a) :
    (t.setupMmapArr size i a).1 = i + 1 ∧
      (t.setupMmapArr size i a).2.totalVmas = t.totalVmas ∧
      ∀ j, j ≠ i + 1 → ((t.setupMmapArr size i a).2.vmas j).file =
        if i + 1 < j ∧ j ≤ t.totalVmas then (t.vmas (j - 1)).file else (t.vmas j).file := by
  unfold Fits at hfits
  unfold setupMmapArr
  simp only
  rw [if_neg (by omega)]
  refine ⟨rfl, rfl, ?_⟩
  intro j hj
  simp only [set, Function.update_of_ne hj, shiftUp_apply]
  by_cases hin : i + 1 < j ∧ j ≤ t.totalVmas
  · rw [if_pos hin, if_pos (by omega)]
    rfl
  · rw [if_neg hin, if_neg (by omega)]

/-- An attempt at a place: it moves nothing in vain, so it fails without a trace or fits. -/
theorem setupMmapArr_tidy {size i a : Int} (h : Fits size a ∨ t.totalVmas ≤ i + 1) :
    t.setupMmapArr size i a = (-1, t) ∧ ¬ Fits size a ∨ Fits size a := by
  by_cases hfits : Fits size a
  · exact .inr hfits
  · left
    have hlast := h.resolve_left hfits
    unfold Fits at hfits
    exact ⟨setupMmapArr_of_last hlast (by omega), hfits⟩

/-- Where `ummap` puts the entry: nowhere, or behind a live entry where it fits. -/
inductive Chosen (t : Table) (length : Int) (r : Int × Table) : Prop
  | none (same : r = (-1, t))
  | behind (i a : Int) (low : -1 ≤ i) (live : i < t.totalVmas) (fits : Fits length a)
      (eq : r = t.setupMmapArr length i a)

theorem Tidy.check_chosen (htidy : t.Tidy addr length flags) (h0 : 0 ≤ t.totalVmas) :
    t.checkMmapPossible addr length = (-1, t) ∧ ¬ t.TakesHint addr length ∨
      (t.checkMmapPossible addr length).1 ≠ -1 ∧ t.TakesHint addr length ∧
        t.Chosen length (t.checkMmapPossible addr length) := by
  rw [checkMmapPossible_eq]
  cases hindex : t.checkIndex addr length with
  | none =>
    left
    refine ⟨rfl, ?_⟩
    rintro ⟨hsome, -⟩
    rw [hindex] at hsome
    cases hsome
  | some i =>
    obtain ⟨hlow, hlive⟩ := checkIndex_mem h0 hindex
    rcases setupMmapArr_tidy (htidy.check i hindex) with ⟨hfail, hfits⟩ | hfits
    · exact .inl ⟨hfail, fun hhint => hfits hhint.2⟩
    · right
      refine ⟨?_, ⟨by rw [hindex]; rfl, hfits⟩, .behind i _ hlow hlive hfits rfl⟩
      have hresult := (setupMmapArr_fits (t := t) (i := i) hfits).1
      simp only
      omega

theorem Tidy.find_chosen (htidy : t.Tidy addr length flags) (hfixed : ¬ has flags mapFixed)
    (hhint : ¬ t.TakesHint addr length) :
    t.findMmapAddr length = (-1, t) ∧ (¬ ∃ x ∈ t.findPlace length, Fits length x.2) ∨
      (t.findMmapAddr length).1 ≠ -1 ∧ t.Chosen length (t.findMmapAddr length) := by
  rw [findMmapAddr_eq]
  cases hplace : t.findPlace length with
  | none =>
    left
    refine ⟨rfl, ?_⟩
    rintro ⟨x, hx, -⟩
    cases hx
  | some x =>
    have hlow := findPlace_mem hplace
    obtain ⟨hlive, hin⟩ := htidy.find hfixed hhint x hplace
    rcases setupMmapArr_tidy hin with ⟨hfail, hfits⟩ | hfits
    · left
      refine ⟨hfail, ?_⟩
      rintro ⟨y, hy, hfits'⟩
      cases hy
      exact hfits hfits'
    · right
      refine ⟨?_, .behind x.1 x.2 hlow hlive hfits rfl⟩
      have hresult := (setupMmapArr_fits (t := t) (i := x.1) hfits).1
      simp only
      omega

/-- The choice of the entry in `ummap`. -/
theorem chooseEntry_chosen (h0 : 0 ≤ t.totalVmas) (hroom : t.totalVmas < 32)
    (hkind : has flags mapPrivate ∨ has flags mapShared)
    (htidy : t.Reaches addr length flags → t.Tidy addr length flags) :
    t.chooseEntry addr length flags = (-1, t) ∧
        ¬ (t.Reaches addr length flags ∧ t.HasPlace addr length flags) ∨
      (t.chooseEntry addr length flags).1 ≠ -1 ∧
        t.Chosen length (t.chooseEntry addr length flags) := by
  unfold chooseEntry
  simp only
  by_cases hhigh : kernBase < u32 (pgroundup (i32 (pgroundup addr + length)))
  · have hreaches : ¬ t.Reaches addr length flags := by
      intro h
      have := h.below
      omega
    left
    refine ⟨?_, fun h => hreaches h.1⟩
    have hlow : addr = 0 ∨ addr < mmapBase ∨
        kernBase < u32 (pgroundup (i32 (pgroundup addr + length))) := .inr (.inr hhigh)
    rw [if_pos hhigh, if_pos hlow, ite_self]
  · rw [if_neg hhigh]
    by_cases hfixed : has flags mapFixed = true
    · rw [if_pos hfixed]
      by_cases hlow : addr = 0 ∨ addr < mmapBase ∨
          kernBase < u32 (pgroundup (i32 (pgroundup addr + length)))
      · left
        rw [if_pos hlow]
        refine ⟨rfl, ?_⟩
        rintro ⟨hreaches, -⟩
        have := hreaches.fixed hfixed
        omega
      · have haligned := Int.emod_eq_zero_of_dvd
          (dvd_pgroundup (i32 (pgroundup addr + length)))
        rw [if_neg hlow, if_neg (by omega)]
        have hreaches : t.Reaches addr length flags :=
          ⟨hroom, hkind, by omega, fun _ => by omega⟩
        rcases (htidy hreaches).check_chosen h0 with ⟨hfail, hhint⟩ | ⟨hne, -, hchosen⟩
        · left
          refine ⟨hfail, ?_⟩
          rintro ⟨-, htakes | ⟨hfree, -⟩⟩
          · exact hhint htakes
          · exact hfree hfixed
        · exact .inr ⟨hne, hchosen⟩
    · rw [if_neg hfixed]
      have hreaches : t.Reaches addr length flags :=
        ⟨hroom, hkind, by omega, fun hf => absurd hf hfixed⟩
      have htidy := htidy hreaches
      rcases htidy.check_chosen h0 with ⟨hfail, hhint⟩ | ⟨hne, -, hchosen⟩
      · rw [hfail, if_neg (fun h => h rfl)]
        rcases htidy.find_chosen hfixed hhint with ⟨hfail', hnone⟩ | ⟨hne, hchosen⟩
        · left
          refine ⟨hfail', ?_⟩
          rintro ⟨-, htakes | ⟨-, hplace⟩⟩
          · exact hhint htakes
          · exact hnone hplace
        · exact .inr ⟨hne, hchosen⟩
      · rw [if_pos hne]
        exact .inr ⟨hne, hchosen⟩

/-- Filling the chosen entry adds its file to those of the live entries. -/
theorem Chosen.fillEntry {r : Int × Table} (hchosen : t.Chosen length r) (hne : r.1 ≠ -1) :
    (r.2.fillEntry r.1 prot flags offset file).2.totalVmas = t.totalVmas + 1 ∧
      (r.2.fillEntry r.1 prot flags offset file).2.liveFiles.Perm (file :: t.liveFiles) := by
  cases hchosen with
  | none same =>
    rw [same] at hne
    exact absurd rfl hne
  | behind i a low live fits eq =>
    obtain ⟨hindex, htotal, hfiles⟩ := setupMmapArr_fits (t := t) (i := i) fits
    rw [← eq] at hindex htotal hfiles
    have hcount : (r.2.fillEntry r.1 prot flags offset file).2.totalVmas = t.totalVmas + 1 := by
      rw [← htotal]
      rfl
    refine ⟨hcount, ?_⟩
    unfold liveFiles
    rw [hcount]
    have heq : entries (fun j => ((r.2.fillEntry r.1 prot flags offset file).2.vmas j).file)
        (t.totalVmas + 1) =
          entries (insertAt (fun j => (t.vmas j).file) (i + 1) file) (t.totalVmas + 1) := by
      refine entries_congr ?_
      intro j _ hj
      simp only [Table.fillEntry, set, hindex]
      unfold insertAt
      by_cases hji : j = i + 1
      · rw [hji, Function.update_self, if_neg (by omega), if_pos rfl]
      · rw [Function.update_of_ne hji, hfiles j hji]
        by_cases hlt : j < i + 1
        · rw [if_neg (by omega), if_pos hlt]
        · rw [if_pos (by omega), if_neg hlt, if_neg hji]
    rw [heq]
    exact entries_insertAt_perm file (by omega) (by omega)

/-- `ummap` adds its file to those of the live entries; if it has no place for the mapping, it
leaves the table alone. -/
theorem ummap_liveFiles (prot : UInt32) (offset : Int) (file : UInt32) (h0 : 0 ≤ t.totalVmas)
    (htidy : t.Reaches addr length flags → t.Tidy addr length flags) :
    (t.ummap addr length prot flags offset file).2 = t ∧
        ¬ (t.Reaches addr length flags ∧ t.HasPlace addr length flags) ∨
      t.totalVmas < 32 ∧
        (t.ummap addr length prot flags offset file).2.totalVmas = t.totalVmas + 1 ∧
        (t.ummap addr length prot flags offset file).2.liveFiles.Perm (file :: t.liveFiles) := by
  unfold ummap
  by_cases hfull : 32 ≤ t.totalVmas
  · left
    rw [if_pos hfull]
    refine ⟨rfl, ?_⟩
    rintro ⟨hreaches, -⟩
    have := hreaches.room
    omega
  · rw [if_neg hfull]
    by_cases hkind : ¬ has flags mapPrivate ∧ ¬ has flags mapShared
    · left
      rw [if_pos hkind]
      refine ⟨rfl, ?_⟩
      rintro ⟨hreaches, -⟩
      have := hreaches.kind
      tauto
    · rw [if_neg hkind]
      simp only
      rcases chooseEntry_chosen h0 (by omega) (by tauto) htidy with ⟨hfail, hnone⟩ | ⟨hne, hchosen⟩
      · left
        rw [hfail, if_pos rfl]
        exact ⟨rfl, hnone⟩
      · right
        rw [if_neg hne]
        exact ⟨by omega, hchosen.fillEntry hne⟩

/-! ## What `umunmap` takes out -/

/-- `umunmap` removes entry `i` altogether. -/
structure Removes (t : Table) (addr length filewrite i : Int) : Prop where
  found : t.findVma (u32 (pgroundup addr)) = some i
  nonempty : (t.vmas i).len ≠ 0
  written : ¬ (has (t.vmas i).flags mapShared ∧ ¬ has (t.vmas i).flags mapAnonymous ∧
    has (t.vmas i).prot protWrite ∧ filewrite < 0)
  whole : (t.vmas i).len ≤ pgroundup length

instance (t : Table) (addr length filewrite i : Int) :
    Decidable (t.Removes addr length filewrite i) :=
  decidable_of_iff (t.findVma (u32 (pgroundup addr)) = some i ∧ (t.vmas i).len ≠ 0 ∧
    (¬ (has (t.vmas i).flags mapShared ∧ ¬ has (t.vmas i).flags mapAnonymous ∧
      has (t.vmas i).prot protWrite ∧ filewrite < 0)) ∧ (t.vmas i).len ≤ pgroundup length)
    ⟨fun h => ⟨h.1, h.2.1, h.2.2.1, h.2.2.2⟩, fun h => ⟨h.found, h.nonempty, h.written, h.whole⟩⟩

/-- The entry with which `umunmap` goes ahead. -/
structure Finds (t : Table) (addr filewrite i : Int) : Prop where
  found : t.findVma (u32 (pgroundup addr)) = some i
  nonempty : (t.vmas i).len ≠ 0
  written : ¬ (has (t.vmas i).flags mapShared ∧ ¬ has (t.vmas i).flags mapAnonymous ∧
    has (t.vmas i).prot protWrite ∧ filewrite < 0)

theorem Removes.finds {i : Int} (h : t.Removes addr length filewrite i) :
    t.Finds addr filewrite i := ⟨h.found, h.nonempty, h.written⟩

/-- The table without entry `i`: its slot is cleared and then filled from behind. -/
def removeEntry (t : Table) (i : Int) : Table where
  vmas := shiftDown copyMmapStruct (fun x => x.addr ≠ 0)
    (t.set i (zeroMmapRegionStruct (t.vmas i))).vmas (32 - i).toNat i
  totalVmas := t.totalVmas - 1

/-- The table with the first `size` bytes of entry `i` taken off. -/
def shortenEntry (t : Table) (i size : Int) : Table :=
  t.set i { t.vmas i with addr := i32 ((t.vmas i).addr + size), len := i32 ((t.vmas i).len - size) }

/-- What a call of `umunmap` does: it fails, removes an entry or takes the front off one. -/
inductive Unmapped (t : Table) (addr length filewrite : Int) (r : Int × Table × List Int) : Prop
  | failed (eq : r = (-1, t, [])) (none : ∀ i, ¬ t.Finds addr filewrite i)
  | removed (i : Int) (removes : t.Removes addr length filewrite i)
      (eq : r = (0, t.removeEntry i, freed addr (t.vmas i).len))
  | shortened (i : Int) (finds : t.Finds addr filewrite i)
      (part : pgroundup length < (t.vmas i).len)
      (eq : r = (0, t.shortenEntry i (pgroundup length), freed addr (pgroundup length)))

theorem umunmap_cases (t : Table) (addr length filewrite : Int) :
    t.Unmapped addr length filewrite (t.umunmap addr length filewrite) := by
  unfold umunmap
  simp only
  cases hfind : t.findVma (u32 (pgroundup addr)) with
  | none =>
    refine .failed rfl ?_
    rintro i ⟨hi, -⟩
    rw [hfind] at hi
    cases hi
  | some i =>
    simp only
    by_cases hlen : (t.vmas i).len = 0
    · rw [if_pos hlen]
      refine .failed rfl ?_
      rintro j ⟨hj, hne, -⟩
      rw [hfind, Option.some.injEq] at hj
      exact hne (hj ▸ hlen)
    · rw [if_neg hlen]
      by_cases hwrite : has (t.vmas i).flags mapShared ∧ ¬ has (t.vmas i).flags mapAnonymous ∧
          has (t.vmas i).prot protWrite ∧ filewrite < 0
      · rw [if_pos hwrite]
        refine .failed rfl ?_
        rintro j ⟨hj, -, hok⟩
        rw [hfind, Option.some.injEq] at hj
        exact hok (hj ▸ hwrite)
      · rw [if_neg hwrite]
        by_cases hall : (t.vmas i).len ≤ pgroundup length
        · rw [if_pos hall]
          refine .removed i ⟨hfind, hlen, hwrite, hall⟩ ?_
          have hsize : (if pgroundup length > (t.vmas i).len then (t.vmas i).len
              else pgroundup length) = (t.vmas i).len := by
            split <;> omega
          rw [hsize]
          rfl
        · rw [if_neg hall, if_neg (by omega)]
          exact .shortened i ⟨hfind, hlen, hwrite⟩ (by omega) rfl

/-- Removing a live entry whose successors are in use. -/
theorem removeEntry_liveFiles {i : Int} (h0 : 0 ≤ i) (hlive : i < t.totalVmas)
    (hmax : t.totalVmas ≤ 32) (hused : ∀ j, i < j → j < t.totalVmas → (t.vmas j).addr ≠ 0) :
    t.liveFiles.Perm ((t.vmas i).file :: (t.removeEntry i).liveFiles) := by
  obtain ⟨m, hle, hm, -, hstop, hf⟩ := shiftDown_spec copyMmapStruct (fun x => x.addr ≠ 0)
    (t.set i (zeroMmapRegionStruct (t.vmas i))).vmas (32 - i).toNat i
  have hslot {j : Int} (hj : j ≠ i) :
      (t.set i (zeroMmapRegionStruct (t.vmas i))).vmas j = t.vmas j :=
    Function.update_of_ne hj _ _
  -- the loop goes on to the last live entry
  have hlast : t.totalVmas - 1 ≤ m := by
    by_contra hlt
    have hunused := hstop (by omega)
    rw [hslot (by omega)] at hunused
    simp only [decide_eq_false_iff_not, not_not] at hunused
    exact hused (m + 1) (by omega) (by omega) hunused
  refine (entries_removeAt_perm (f := fun j => (t.vmas j).file) h0 hlive).trans ?_
  refine List.Perm.cons _ (List.Perm.of_eq (entries_congr ?_))
  intro j _ hj
  have hj : j < t.totalVmas - 1 := hj
  simp only [removeEntry]
  rw [hf]
  unfold removeAt
  by_cases hji : j < i
  · rw [if_pos hji, if_neg (by omega), hslot (by omega)]
  · rw [if_neg hji, if_pos (by omega), hslot (by omega : j + 1 ≠ i)]
    rfl

/-- `umunmap` takes out the file of the entry it removes; otherwise the files stay. -/
theorem umunmap_liveFiles {filewrite : Int} (hmax : t.totalVmas ≤ 32)
    (hcond : ∀ i, t.Removes addr length filewrite i → i < t.totalVmas ∧
      ∀ j, i < j → j < t.totalVmas → (t.vmas j).addr ≠ 0) :
    ((t.umunmap addr length filewrite).2.1.totalVmas = t.totalVmas ∧
        (t.umunmap addr length filewrite).2.1.liveFiles = t.liveFiles) ∨
      ∃ i, t.Removes addr length filewrite i ∧ 0 ≤ i ∧ i < t.totalVmas ∧
        (t.umunmap addr length filewrite).2.1.totalVmas = t.totalVmas - 1 ∧
        t.liveFiles.Perm ((t.vmas i).file :: (t.umunmap addr length filewrite).2.1.liveFiles) := by
  cases t.umunmap_cases addr length filewrite with
  | failed eq none =>
    left
    rw [eq]
    exact ⟨rfl, rfl⟩
  | removed i removes eq =>
    right
    obtain ⟨hi, -⟩ := findFrom_eq_some removes.found
    obtain ⟨hlive, hused⟩ := hcond i removes
    rw [eq]
    exact ⟨i, removes, hi, hlive, rfl, removeEntry_liveFiles hi hlive hmax hused⟩
  | shortened i finds part eq =>
    left
    rw [eq]
    refine ⟨rfl, entries_congr ?_⟩
    intro j _ _
    simp only [shortenEntry, set]
    by_cases hj : j = i
    · rw [hj, Function.update_self]
    · rw [Function.update_of_ne hj]

/-! ## What a page fault leaves -/

/-- `pgft_handler` changes the length of an entry at most. -/
theorem pgftHandler_files (t : Table) (faultAddr : Int) (present : Bool) :
    (t.pgftHandler faultAddr present).2.totalVmas = t.totalVmas ∧
      ∀ i, ((t.pgftHandler faultAddr present).2.vmas i).file = (t.vmas i).file := by
  have hgrown (i : Int) : (t.grown.vmas i).file = (t.vmas i).file := by
    simp only [grown, set]
    by_cases hi : i = 0
    · rw [hi, Function.update_self]
    · rw [Function.update_of_ne hi]
  unfold pgftHandler
  split
  · exact ⟨rfl, fun _ => rfl⟩
  · split
    · simp only
      split
      · exact ⟨rfl, fun _ => rfl⟩
      · exact ⟨rfl, fun _ => rfl⟩
    · split
      · exact ⟨rfl, hgrown⟩
      · exact ⟨rfl, fun _ => rfl⟩

end Table

end Cs537.P5
