import Cs537.P5.FailedFork
import Cs537.P5.Stale
import Cs537.P5.Storage

/-!
# Removing all mappings

`clear_maps` counts down from `total_vmas` and looks at the last entry in each round. It relies on
`umunmap` to take that entry away: where it does not call `umunmap`, because the slot carries a
`ref_count`, or where `umunmap` fails, every later round looks at the same entry again. A slot
carries a `ref_count` once a child has been given a shared mapping there, and nothing ever clears
it. Whether a write-back comes back also depends on what its file is and on the disk.
-/

namespace Cs537.P5

open Cs537.Lib

/-- A call of `umunmap` that `clear_maps` makes, with the states before and after it. -/
structure UnmapCall where
  storage : Storage
  before : Machine
  addr : Int
  len : Int
  result : Int
  after : Machine

namespace Machine

/-- The entry that the loop of `clear_maps` looks at. -/
def lastVma (m : Machine) : Vma := m.maps.vmas (m.maps.totalVmas - 1)

/-- The loop of `clear_maps` (`sys_mmap.c:336-341`), `n` rounds left: the calls it makes. -/
def clearLoop : Nat → Storage → Machine → Except Halt (List UnmapCall × Machine)
  | 0, _, m => .ok ([], m)
  | n + 1, s, m =>
    if m.lastVma.refCount = 0 then
      match s.umunmap m m.lastVma.addr m.lastVma.len with
      | .error e => .error e
      | .ok (r, m', s') =>
        match clearLoop n s' m' with
        | .error e => .error e
        | .ok (calls, m'') => .ok (⟨s, m, m.lastVma.addr, m.lastVma.len, r, m'⟩ :: calls, m'')
    else clearLoop n s m

/-- `clear_maps` (`sys_mmap.c:334-343`). -/
def clearMaps (s : Storage) (m : Machine) : Except Halt (List UnmapCall × Machine) :=
  match clearLoop m.maps.totalVmas.toNat s m with
  | .error e => .error e
  | .ok (calls, m) => .ok (calls, { m with maps := { m.maps with totalVmas := 0 } })

end Machine

/-- A mapping that `umunmap` writes back: it is shared and writable, and it has a file. -/
structure Vma.IsDirty (v : Vma) : Prop where
  shared : has v.flags mapShared = true
  isFile : has v.flags mapAnonymous = false
  writable : has v.prot protWrite = true

/-- Some bytes stand in the file of a mapping, at its place. -/
def Machine.Holds (m : Machine) (v : Vma) (bs : List UInt8) : Prop :=
  ∀ k < bs.length, (m.fileData v)[(u32 v.offset).toNat + k]? = bs[k]?

/-- A call has put the bytes of the mapping, as the kernel reads them, in the file. -/
def UnmapCall.WroteBack (c : UnmapCall) (v : Vma) : Prop :=
  ∃ bs m₁, c.storage.loads (c.before.seek v.file v.offset) (some (c.before.file v.file).ip) v.addr
      v.len.toNat = .ok (bs, m₁) ∧ c.after.Holds v bs

/-- The range of an entry. -/
def Table.range (t : Table) (i : Int) : Int × Int := ((t.vmas i).addr, (t.vmas i).len)

/-- There was one call for each live mapping, and it succeeded; the mappings that have to be are
written back, which only a regular file can keep, and none has a page any more. -/
structure Cleared (s : Storage) (m : Machine) (calls : List UnmapCall) (m' : Machine) : Prop where
  once : (calls.map fun c => (c.addr, c.len)).Perm (entries m.maps.range m.maps.totalVmas)
  succeeded : ∀ c ∈ calls, c.result = 0
  written : ∀ i, m.maps.Live i → (m.maps.vmas i).IsDirty →
    s.regular (m.maps.vmas i).file = true ∧
      ∃ c ∈ calls, (c.addr, c.len) = m.maps.range i ∧ c.WroteBack (m.maps.vmas i)
  absent : ∀ i, m.maps.Live i → ∀ p, (m.maps.vmas i).HasPage p → m'.dir.pte p = none

namespace Machine

/-- `clear_maps` removes every mapping. -/
def Clears (s : Storage) (m : Machine) : Prop :=
  ∃ calls m', m.clearMaps s = .ok (calls, m') ∧ Cleared s m calls m' ∧ m'.maps.totalVmas = 0

/-- The last entry can be written back: its file is a regular one and takes it, its memory can be
read under the lock, and the disk has the blocks. -/
structure LastFlushes (s : Storage) (m : Machine) : Prop where
  regular : s.regular m.lastVma.file = true
  flushes : ∃ bs m₁, s.Flushes m m.lastVma bs m₁
  room : s.Room m m.lastVma

/-- A round of `clear_maps` removes the last entry: its slot has no `ref_count`, and if it has to be
written back, then that succeeds. -/
structure RoundOk (s : Storage) (m : Machine) : Prop where
  refCount : m.lastVma.refCount = 0
  flushes : m.lastVma.IsDirty → LastFlushes s m

/-- `n` rounds of `clear_maps` each remove an entry. -/
def RoundsOk : Nat → Storage → Machine → Prop
  | 0, _, _ => True
  | n + 1, s, m => RoundOk s m ∧
    ∀ m' s', s.umunmap m m.lastVma.addr m.lastVma.len = .ok (0, m', s') → RoundsOk n s' m'

end Machine

/-! ## The last entry -/

namespace Table

variable {t : Table}

theorem Inv.last_live (hn : 0 < t.totalVmas) : t.Live (t.totalVmas - 1) := ⟨by omega, by omega⟩

/-- The search of `umunmap` for the last entry finds it, as no live entry starts where it does. -/
theorem Inv.find_last (h : t.Inv) (hn : 0 < t.totalVmas) :
    t.findVma (u32 (pgroundup (t.vmas (t.totalVmas - 1)).addr)) = some (t.totalVmas - 1) := by
  have hm : mmapBase = 0x60000000 := rfl
  have hk : kernBase = 0x80000000 := rfl
  have hle := h.le
  have hmem {i : Int} (h0 : 0 ≤ i) (hi : i < t.totalVmas) :
      pgsize ∣ (t.vmas i).addr ∧ u32 (t.vmas i).addr = (t.vmas i).addr ∧
        (t.vmas i).addr < 2 ^ 31 ∧ 0 ≤ (t.vmas i).addr := by
    have hplaced := h.live i h0 hi
    have hbase : mmapBase ≤ (t.vmas i).addr := hplaced.base_le
    have hend := hplaced.end_le
    have hlt : (t.vmas i).addr < (t.spans i).roundEnd := hplaced.addr_lt
    exact ⟨hplaced.aligned, u32_of_mem (by omega) (by omega), by omega, by omega⟩
  obtain ⟨haligned, hu, hlt, h0⟩ := hmem (i := t.totalVmas - 1) (by omega) (by omega)
  rw [pgroundup_of_dvd haligned (by omega) hlt, hu]
  have hlast : decide (u32 (t.vmas (t.totalVmas - 1)).addr = (t.vmas (t.totalVmas - 1)).addr) =
      true := decide_eq_true hu
  cases hfind : t.findVma (t.vmas (t.totalVmas - 1)).addr with
  | none =>
    have hnot := findFrom_eq_none hfind (t.totalVmas - 1) (by omega) (by omega)
    exact absurd hlast (Bool.eq_false_iff.mp hnot)
  | some j =>
    obtain ⟨hj0, -, hj, hmin⟩ := findFrom_eq_some hfind
    have hjle : j ≤ t.totalVmas - 1 := by
      by_contra hgt
      have hnot := hmin (t.totalVmas - 1) (by omega) (by omega)
      exact absurd hlast (Bool.eq_false_iff.mp hnot)
    by_cases hjlast : j = t.totalVmas - 1
    · rw [hjlast]
    · have heq := of_decide_eq_true hj
      rw [(hmem hj0 (by omega)).2.1] at heq
      have hsorted : (t.spans j).roundEnd ≤ (t.spans (t.totalVmas - 1)).addr :=
        h.sorted j (t.totalVmas - 1) hj0 (by omega) (by omega)
      have hplaced : (t.vmas j).addr < (t.spans j).roundEnd := (h.live j hj0 (by omega)).addr_lt
      have haddr : (t.spans (t.totalVmas - 1)).addr = (t.vmas (t.totalVmas - 1)).addr := rfl
      omega

/-- The length of the last entry, rounded up, is not less than its length. -/
theorem Inv.len_last (h : t.Inv) (hn : 0 < t.totalVmas) :
    0 < (t.vmas (t.totalVmas - 1)).len ∧
      (t.vmas (t.totalVmas - 1)).len ≤ pgroundup (t.vmas (t.totalVmas - 1)).len ∧
      0 ≤ (t.vmas (t.totalVmas - 1)).addr ∧
      (t.vmas (t.totalVmas - 1)).addr + (t.vmas (t.totalVmas - 1)).len ≤ kernBase ∧
      (t.vmas (t.totalVmas - 1)).len < 2 ^ 31 := by
  have hm : mmapBase = 0x60000000 := rfl
  have hk : kernBase = 0x80000000 := rfl
  have hplaced := h.live (t.totalVmas - 1) (by omega) (by omega)
  have hbase : mmapBase ≤ (t.vmas (t.totalVmas - 1)).addr := hplaced.base_le
  have hpos : 0 < (t.vmas (t.totalVmas - 1)).len := hplaced.len_pos
  have hle : (t.vmas (t.totalVmas - 1)).addr + (t.vmas (t.totalVmas - 1)).len ≤
      (t.spans (t.totalVmas - 1)).roundEnd := Span.le_roundEnd _
  have hend := hplaced.end_le
  refine ⟨hpos, ?_, by omega, by omega, by omega⟩
  unfold pgroundup i32
  unfold alignUp pgsize
  omega

theorem Inv.ordered (h : t.Inv) : t.Ordered := by
  have hm : mmapBase = 0x60000000 := rfl
  refine ⟨fun i hi => (h.live i hi.1 hi.2).aligned, ?_, ?_, ?_, h.sorted⟩
  · intro i hi
    exact (h.live i hi.1 hi.2).len_pos
  · intro i hi
    have := (h.live i hi.1 hi.2).base_le
    omega
  · intro i hi
    exact (h.live i hi.1 hi.2).end_le

/-- Behind its first byte, a fault in the last entry finds it. -/
theorem Inv.covering_last (h : t.Inv) (hn : 0 < t.totalVmas) {va : Int}
    (hlo : (t.vmas (t.totalVmas - 1)).addr < va)
    (hhi : va < (t.vmas (t.totalVmas - 1)).addr + (t.vmas (t.totalVmas - 1)).len) :
    t.covering va = some (t.totalVmas - 1) := by
  have hlast : (t.spans (t.totalVmas - 1)).addr = (t.vmas (t.totalVmas - 1)).addr := rfl
  have hlen : (t.spans (t.totalVmas - 1)).len = (t.vmas (t.totalVmas - 1)).len := rfl
  cases hcover : t.covering va with
  | none =>
    have hnot := h.ordered.covering_none hcover (last_live hn)
    exact absurd ⟨by omega, by omega⟩ hnot
  | some j =>
    obtain ⟨⟨hj0, hj⟩, hstart, hend⟩ := h.ordered.covering_some hcover
    by_cases hjlast : j = t.totalVmas - 1
    · rw [hjlast]
    · have hsorted : (t.spans j).roundEnd ≤ (t.spans (t.totalVmas - 1)).addr :=
        h.sorted j (t.totalVmas - 1) hj0 (by omega) (by omega)
      have hle := (t.spans j).le_roundEnd
      omega

/-- Removing the last entry leaves the others where they are. -/
theorem removeEntry_last_below (t : Table) {j : Int} (hj : j < t.totalVmas - 1) :
    (t.removeEntry (t.totalVmas - 1)).vmas j = t.vmas j := by
  obtain ⟨m, -, -, -, -, hf⟩ := shiftDown_spec copyMmapStruct (fun x => x.addr ≠ 0)
    (t.set (t.totalVmas - 1) (zeroMmapRegionStruct (t.vmas (t.totalVmas - 1)))).vmas
    (32 - (t.totalVmas - 1)).toNat (t.totalVmas - 1)
  show shiftDown _ _ _ _ _ j = _
  rw [hf, if_neg (by omega)]
  exact Function.update_of_ne (by omega) _ _

theorem Inv.userEntry (h : t.Inv) (i : Int) : Machine.UserEntry t i := by
  rintro ⟨h0, hi⟩
  have hm : mmapBase = 0x60000000 := rfl
  have hplaced := h.live i h0 hi
  have hbase : mmapBase ≤ (t.vmas i).addr := hplaced.base_le
  have hle : (t.vmas i).addr + (t.vmas i).len ≤ (t.spans i).roundEnd := Span.le_roundEnd _
  have hend := hplaced.end_le
  exact ⟨by omega, by omega⟩

end Table

/-! ## A round -/

namespace Machine

variable {m m' m₁ : Machine}

/-- What a round does that removes the last entry. -/
structure Removed (m m' : Machine) : Prop where
  maps : m'.maps = m.maps.removeEntry (m.maps.totalVmas - 1)
  inside : ∀ p, m.lastVma.HasPage p → m'.dir.pte p = none
  outside : ∀ p, ¬ m.lastVma.HasPage p → m'.dir.pte p = m.dir.pte p

/-- The addresses of an entry are on its pages. -/
theorem InEntry.hasPage {v : Vma} {va : Int} (hin : InEntry v va) (haligned : pgsize ∣ v.addr)
    (h0 : 0 ≤ v.addr) (hend : v.addr + v.len ≤ kernBase) : v.HasPage (pageOf va) := by
  have hk : kernBase = 0x80000000 := rfl
  obtain ⟨k, hlt, rfl⟩ := hin
  rw [u32_of_mem (by omega) (by omega)]
  unfold Vma.HasPage pageOf pgsize at *
  omega

theorem mem_freed_iff {v : Vma} (haligned : pgsize ∣ v.addr) (h0 : 0 ≤ v.addr)
    (hend : v.addr + v.len ≤ kernBase) {p : Int} :
    p ∈ (Table.freed v.addr v.len).map pageOf ↔ v.HasPage p := by
  have hk : kernBase = 0x80000000 := rfl
  obtain ⟨c, hc⟩ := haligned
  rw [mem_freed]
  constructor
  · rintro ⟨k, hlt, rfl⟩
    refine InEntry.hasPage ⟨4096 * k, ?_, ?_⟩ ⟨c, hc⟩ h0 hend
    · unfold pgsize at hlt
      push_cast
      exact hlt
    · unfold pgsize
      push_cast
      rfl
  · rintro ⟨hlo, hhi⟩
    unfold pgsize at *
    refine ⟨(p - c).toNat, by omega, ?_⟩
    rw [u32_of_mem (by omega) (by omega)]
    unfold pageOf pgsize
    omega

/-- A round whose write-back has returned. -/
theorem umunmap_last (h : m.maps.Inv) (hn : 0 < m.maps.totalVmas) {w : Int}
    (hwrite : m.writeBack m.lastVma.addr = .ok (w, m₁)) :
    m.lastVma.IsDirty ∧ w < 0 ∧ m.umunmap m.lastVma.addr m.lastVma.len = .ok (-1, m₁) ∨
      ¬ (m.lastVma.IsDirty ∧ w < 0) ∧
        ∃ m', m.umunmap m.lastVma.addr m.lastVma.len = .ok (0, m') ∧ Removed m m' ∧
          m'.file = m₁.file ∧ m'.data = m₁.data := by
  obtain ⟨hpos, hround, h0, hend, -⟩ := h.len_last hn
  have hfind := h.find_last hn
  have haligned := (h.live (m.maps.totalVmas - 1) (by omega) (by omega)).aligned
  have hwrote := writeBack_wrote (h.userEntry _) hfind hwrite
  have hmaps := hwrote.paged.maps (Table.Inv.last_live hn)
  have hdirty : m.lastVma.IsDirty ↔ has m.lastVma.flags mapShared = true ∧
      ¬ has m.lastVma.flags mapAnonymous = true ∧ has m.lastVma.prot protWrite = true := by
    rw [Bool.not_eq_true]
    exact ⟨fun h => ⟨h.shared, h.isFile, h.writable⟩, fun h => ⟨h.1, h.2.1, h.2.2⟩⟩
  have heq : m.umunmap m.lastVma.addr m.lastVma.len =
      .ok ((m.maps.umunmap m.lastVma.addr m.lastVma.len w).1,
        (m.maps.umunmap m.lastVma.addr m.lastVma.len w).2.2.foldl freePage
          { m₁ with maps := (m.maps.umunmap m.lastVma.addr m.lastVma.len w).2.1 }) := by
    unfold umunmap
    rw [hwrite]
    simp only [hmaps]
  cases m.maps.umunmap_cases m.lastVma.addr m.lastVma.len w with
  | failed eq none =>
    left
    have hfailed : has m.lastVma.flags mapShared = true ∧
          ¬ has m.lastVma.flags mapAnonymous = true ∧ has m.lastVma.prot protWrite = true ∧
            w < 0 := by
      by_contra hok
      exact none _ ⟨hfind, by unfold lastVma at *; omega, hok⟩
    refine ⟨hdirty.mpr ⟨hfailed.1, hfailed.2.1, hfailed.2.2.1⟩, hfailed.2.2.2, ?_⟩
    rw [heq, eq, ← hmaps]
    rfl
  | removed j removes eq =>
    right
    obtain rfl : m.maps.totalVmas - 1 = j := Option.some.inj (hfind.symm.trans removes.found)
    have hfreed := freePages_freed
      { m₁ with maps := m.maps.removeEntry (m.maps.totalVmas - 1) }
      (Table.freed m.lastVma.addr m.lastVma.len)
    have hpage (p : Int) := mem_freed_iff (v := m.lastVma) haligned h0 hend (p := p)
    refine ⟨?_, _, ?_, ⟨hfreed.maps, ?_, ?_⟩, hfreed.file, hfreed.data⟩
    · rintro ⟨hd, hw⟩
      obtain ⟨h1, h2, h3⟩ := hdirty.mp hd
      exact removes.written ⟨h1, h2, h3, hw⟩
    · rw [heq, eq]
      rfl
    · intro p hp
      rw [hfreed.pte, if_pos ((hpage p).mpr hp)]
    · intro p hp
      rw [hfreed.pte, if_neg (mt (hpage p).mp hp)]
      refine hwrote.paged.only p ?_
      rintro ⟨va, hin, rfl⟩
      exact hp (hin.hasPage haligned h0 hend)
  | shortened j finds part eq =>
    obtain rfl : m.maps.totalVmas - 1 = j := Option.some.inj (hfind.symm.trans finds.found)
    exact absurd hround (Int.not_le.mpr part)

/-- Whether `umunmap` finds something to write back in the last entry. -/
theorem dirtyEntry_last (h : m.maps.Inv) (hn : 0 < m.maps.totalVmas) :
    m.lastVma.IsDirty ∧ dirtyEntry m.maps m.lastVma.addr = some m.lastVma ∨
      ¬ m.lastVma.IsDirty ∧ dirtyEntry m.maps m.lastVma.addr = none := by
  obtain ⟨hpos, -⟩ := h.len_last hn
  rcases dirtyEntry_cases (h.find_last hn) with ⟨hdirty, -, h1, h2, h3⟩ | ⟨hclean, hnot⟩
  · exact .inl ⟨⟨h1, Bool.not_eq_true _ ▸ h2, h3⟩, hdirty⟩
  · right
    refine ⟨?_, hclean⟩
    rintro ⟨h1, h2, h3⟩
    exact hnot (by omega) ⟨h1, by rw [show (m.maps.vmas (m.maps.totalVmas - 1)).flags =
      m.lastVma.flags from rfl, h2]; exact Bool.false_ne_true, h3⟩

/-- The bytes that were read are at their place in the file. -/
theorem Flushes.holds {v : Vma} {bs : List UInt8} (h : m.Flushes v bs m₁)
    (hfile : m'.file = (m₁.rewrite v.file (splice (m.fileData v) (u32 v.offset).toNat bs)
      (u32 v.offset + v.len.toNat)).file)
    (hdata : m'.data = (m₁.rewrite v.file (splice (m.fileData v) (u32 v.offset).toNat bs)
      (u32 v.offset + v.len.toNat)).data) : m'.Holds v bs := by
  have hle := h.takes.fits.off_le
  rw [seek_off] at hle
  have hin : (u32 v.offset).toNat ≤ (m.fileData v).length := by
    have hle' : u32 v.offset ≤ ((m.fileData v).length : Int) := hle
    omega
  intro k hk
  have hfileData : m'.fileData v = splice (m.fileData v) (u32 v.offset).toNat bs := by
    unfold fileData
    rw [hfile, hdata, rewrite_file_self]
    exact rewrite_data_self _ _ _ _
  rw [hfileData]
  exact getElem?_splice hin hk

/-- A call that succeeds has removed the last entry and, if that was dirty, written it back. -/
theorem removed_of_ok (h : m.maps.Inv) (hn : 0 < m.maps.totalVmas)
    (hok : m.umunmap m.lastVma.addr m.lastVma.len = .ok (0, m')) :
    Removed m m' ∧ (m.lastVma.IsDirty →
      ∃ bs m₁, m.Flushes m.lastVma bs m₁ ∧ m'.Holds m.lastVma bs) := by
  obtain ⟨hpos, -, -, -, hmax⟩ := h.len_last hn
  cases hwrite : m.writeBack m.lastVma.addr with
  | error e =>
    unfold umunmap at hok
    rw [hwrite] at hok
    cases hok
  | ok r =>
    obtain ⟨w, m₁⟩ := r
    rcases umunmap_last h hn hwrite with ⟨-, -, hfailed⟩ | ⟨hnot, m₂, hok', hremoved, hfile, hdata⟩
    · cases hok.symm.trans hfailed
    · cases hok.symm.trans hok'
      refine ⟨hremoved, ?_⟩
      intro hd
      have hw : 0 ≤ w := by
        by_contra hneg
        exact hnot ⟨hd, by omega⟩
      rcases dirtyEntry_last h hn with ⟨-, hdirty⟩ | ⟨hclean, -⟩
      · obtain ⟨bs, m₃, hflush, -, rfl⟩ :=
          (writeBack_iff hdirty hpos hmax).mp ⟨hwrite, hw⟩
        exact ⟨bs, m₃, hflush, hflush.holds hfile hdata⟩
      · exact absurd hd hclean

/-- A call succeeds if the last entry is clean or its write-back succeeds. -/
theorem ok_of_flushes (h : m.maps.Inv) (hn : 0 < m.maps.totalVmas)
    (hflush : m.lastVma.IsDirty → ∃ bs m₁, m.Flushes m.lastVma bs m₁) :
    ∃ m', m.umunmap m.lastVma.addr m.lastVma.len = .ok (0, m') := by
  obtain ⟨hpos, -, -, -, hmax⟩ := h.len_last hn
  -- the write-back returns, and not with -1 if the entry is dirty
  have hwrite : ∃ w m₁, m.writeBack m.lastVma.addr = .ok (w, m₁) ∧
      ¬ (m.lastVma.IsDirty ∧ w < 0) := by
    rcases dirtyEntry_last h hn with ⟨hd, hdirty⟩ | ⟨hclean, hnone⟩
    · obtain ⟨bs, m₁, hf⟩ := hflush hd
      obtain ⟨hok, hw⟩ :=
        (writeBack_iff hdirty hpos hmax).mpr ⟨bs, m₁, hf, rfl, rfl⟩
      exact ⟨_, _, hok, fun hneg => by omega⟩
    · refine ⟨0, m, ?_, fun hneg => hclean hneg.1⟩
      unfold writeBack
      rw [hnone]
  obtain ⟨w, m₁, hwrite, hnot⟩ := hwrite
  rcases umunmap_last h hn hwrite with ⟨hd, hw, -⟩ | ⟨-, m', hok, -⟩
  · exact absurd ⟨hd, hw⟩ hnot
  · exact ⟨m', hok⟩

/-! ## A round with its storage -/

section Rounds

variable {s s' : Storage}

/-- A last entry that is dirty, of a regular file, is written back. -/
theorem dirty_last (h : m.maps.Inv) (hn : 0 < m.maps.totalVmas) (hd : m.lastVma.IsDirty)
    (hregular : s.regular m.lastVma.file = true) :
    s.Dirty m m.lastVma.addr (m.maps.totalVmas - 1) := by
  have hk : kernBase = 0x80000000 := rfl
  obtain ⟨hpos, -, h0, hend, hmax⟩ := h.len_last hn
  have hfound : dirtyEntry m.maps m.lastVma.addr = some m.lastVma := by
    rcases dirtyEntry_last h hn with ⟨-, hfound⟩ | ⟨hclean, -⟩
    · exact hfound
    · exact absurd hd hclean
  refine ⟨Table.Inv.last_live hn, h.userEntry _, hfound, hregular, hpos, hmax, ?_⟩
  intro k hlt hk0
  rw [u32_of_mem (by omega) (by omega)]
  exact ⟨_, h.covering_last hn (by omega) (by omega), .inr hregular⟩

/-- Reading the first byte changes nothing that matters to the removal. -/
theorem Removed.of_touched {m₀ : Machine} (h : m.maps.Inv) (hn : 0 < m.maps.totalVmas)
    (ht : s.Touched m (m.maps.totalVmas - 1) m₀) (hremoved : Removed m₀ m') : Removed m m' := by
  obtain ⟨hpos, -, h0, hend, -⟩ := h.len_last hn
  have haligned := (h.live (m.maps.totalVmas - 1) (by omega) (by omega)).aligned
  have hmaps := ht.paged.maps (Table.Inv.last_live hn)
  have hlast : m₀.lastVma = m.lastVma := by
    unfold lastVma
    rw [hmaps]
  obtain ⟨hafter, hinside, houtside⟩ := hremoved
  rw [hmaps] at hafter
  rw [hlast] at hinside houtside
  refine ⟨hafter, hinside, ?_⟩
  intro p hp
  rw [houtside p hp]
  refine ht.paged.only p ?_
  rintro ⟨va, hin, rfl⟩
  exact hp (hin.hasPage haligned h0 hend)

/-- A call that succeeds has removed the last entry and, if that was dirty, written it back. -/
theorem removed_of_storage_ok (h : m.maps.Inv) (hn : 0 < m.maps.totalVmas)
    (hregular : m.lastVma.IsDirty → s.regular m.lastVma.file = true)
    (hok : s.umunmap m m.lastVma.addr m.lastVma.len = .ok (0, m', s')) :
    Removed m m' ∧ (m.lastVma.IsDirty → LastFlushes s m ∧
      (UnmapCall.mk s m m.lastVma.addr m.lastVma.len 0 m').WroteBack m.lastVma) := by
  have hreturned : ∃ w m₁ s₁, s.writeBack m m.lastVma.addr = .ok (w, m₁, s₁) := by
    cases hwrite : s.writeBack m m.lastVma.addr with
    | error e =>
      unfold Storage.umunmap at hok
      rw [hwrite] at hok
      cases hok
    | ok r => exact ⟨_, _, _, rfl⟩
  obtain ⟨w, m₁, s₁, hwrite⟩ := hreturned
  -- the call is one of `Machine`, from where the write-back starts
  have hmachine {m₀ : Machine} (hm : m₀.writeBack m.lastVma.addr = .ok (w, m₁)) :
      m₀.umunmap m.lastVma.addr m.lastVma.len = .ok (0, m') := by
    rw [Storage.umunmap_of_writeBack hwrite hm] at hok
    cases hcall : m₀.umunmap m.lastVma.addr m.lastVma.len with
    | error e =>
      rw [hcall] at hok
      cases hok
    | ok r =>
      obtain ⟨r, m₂⟩ := r
      rw [hcall] at hok
      cases hok
      rfl
  rcases dirtyEntry_last h hn with ⟨hd, hfound⟩ | ⟨hclean, hnone⟩
  · have hdirty := dirty_last h hn hd (hregular hd)
    obtain ⟨m₀, hm, ⟨rfl, hnot⟩ | ⟨⟨c, hload⟩, hheld⟩⟩ := hdirty.writeBack_ok hwrite
    · obtain ⟨-, hflushed⟩ := removed_of_ok h hn (hmachine hm)
      obtain ⟨bs, m₂, hflush, -⟩ := hflushed hd
      exact absurd (Storage.starts_of_takes hflush.takes) hnot
    · have ht := hdirty.touched hload
      have hmaps := ht.paged.maps (Table.Inv.last_live hn)
      have hlast : m₀.lastVma = m.lastVma := by
        unfold lastVma
        rw [hmaps]
      obtain ⟨hremoved, hflushed⟩ := removed_of_ok (m := m₀) (by rw [hmaps]; exact h)
        (by rw [hmaps]; exact hn) (by rw [hlast]; exact hmachine hm)
      rw [hlast] at hflushed
      obtain ⟨bs, m₂, hflush, hholds⟩ := hflushed hd
      have hflush' := (hdirty.flushes_iff hload).mpr hflush
      refine ⟨hremoved.of_touched h hn ht, fun _ => ⟨⟨hregular hd, ⟨bs, m₂, hflush'⟩, ?_⟩, ?_⟩⟩
      · exact (hdirty.room_iff hload hflush hm).mpr hheld
      · exact ⟨bs, m₂, hflush'.reads, hholds⟩
  · have hm : m.writeBack m.lastVma.addr = .ok (w, m₁) := by
      unfold Storage.writeBack at hwrite
      unfold writeBack
      rw [hnone] at hwrite ⊢
      cases hwrite
      rfl
    exact ⟨(removed_of_ok h hn (hmachine hm)).1, fun hd => absurd hd hclean⟩

/-- A call succeeds if the last entry is clean or can be written back. -/
theorem storage_ok_of_flushes (h : m.maps.Inv) (hn : 0 < m.maps.totalVmas)
    (hflush : m.lastVma.IsDirty → LastFlushes s m) :
    ∃ m' s', s.umunmap m m.lastVma.addr m.lastVma.len = .ok (0, m', s') := by
  rcases dirtyEntry_last h hn with ⟨hd, -⟩ | ⟨hclean, hnone⟩
  · obtain ⟨hregular, ⟨bs, m₁, hf⟩, hroom⟩ := hflush hd
    obtain ⟨m₀, m₂, s₂, w, ht, hf₀, hs, hm⟩ := (dirty_last h hn hd hregular).ok_of_flushes hf hroom
    have hmaps := ht.paged.maps (Table.Inv.last_live hn)
    have hlast : m₀.lastVma = m.lastVma := by
      unfold lastVma
      rw [hmaps]
    obtain ⟨m', hok⟩ := ok_of_flushes (m := m₀) (by rw [hmaps]; exact h)
      (by rw [hmaps]; exact hn) (fun _ => ⟨bs, m₁, by rw [hlast]; exact hf₀⟩)
    rw [hlast] at hok
    refine ⟨m', s₂, ?_⟩
    rw [Storage.umunmap_of_writeBack hs hm, hok]
    rfl
  · obtain ⟨m', hok⟩ := ok_of_flushes h hn fun hd => absurd hd hclean
    have hs : s.writeBack m m.lastVma.addr = .ok (0, m, s) := by
      unfold Storage.writeBack
      rw [hnone]
    have hm : m.writeBack m.lastVma.addr = .ok (0, m) := by
      unfold writeBack
      rw [hnone]
    refine ⟨m', s, ?_⟩
    rw [Storage.umunmap_of_writeBack hs hm, hok]
    rfl

end Rounds

/-! ## All rounds -/

variable {s s' : Storage}

theorem Removed.inv (h : Removed m m') (hinv : m.maps.Inv) (hn : 0 < m.maps.totalVmas) :
    m'.maps.Inv ∧ m'.maps.totalVmas = m.maps.totalVmas - 1 := by
  have hle := hinv.le
  rw [h.maps]
  exact ⟨hinv.shiftDown hn (by omega) (by omega), rfl⟩

theorem Removed.vmas (h : Removed m m') {j : Int} (hj : j < m.maps.totalVmas - 1) :
    m'.maps.vmas j = m.maps.vmas j := by
  rw [h.maps]
  exact m.maps.removeEntry_last_below hj

theorem length_clearLoop {n : Nat} {calls : List UnmapCall}
    (hok : clearLoop n s m = .ok (calls, m')) : calls.length ≤ n := by
  induction n generalizing s m calls with
  | zero =>
    cases hok
    exact Nat.le_refl 0
  | succ n ih =>
    rw [clearLoop] at hok
    split at hok
    · split at hok
      · cases hok
      · split at hok
        · cases hok
        · rename_i hrest
          cases hok
          rw [List.length_cons]
          exact Nat.succ_le_succ (ih hrest)
    · exact Nat.le_succ_of_le (ih hok)

/-- A page of a live mapping is on no other one. -/
theorem HasPage.unique {t : Table} (h : t.Inv) {i j : Int} (hi : t.Live i) (hj : t.Live j) {p : Int}
    (hpi : (t.vmas i).HasPage p) (hpj : (t.vmas j).HasPage p) : i = j := by
  have hone {i j : Int} (hi : 0 ≤ i) (hij : i < j) (hj : j < t.totalVmas)
      (hpi : (t.vmas i).HasPage p) (hpj : (t.vmas j).HasPage p) : False := by
    have hsorted : (t.spans i).roundEnd ≤ (t.spans j).addr := h.sorted i j hi hij hj
    have hle : (t.vmas i).addr + (t.vmas i).len ≤ (t.spans i).roundEnd := Span.le_roundEnd _
    have haddr : (t.spans j).addr = (t.vmas j).addr := rfl
    have h1 := hpi.2
    have h2 := hpj.1
    omega
  by_contra hne
  rcases Int.lt_or_gt_of_ne hne with hlt | hgt
  · exact hone hi.1 hlt hj.2 hpi hpj
  · exact hone hj.1 hgt hi.2 hpj hpi

/-- The live entries are the last one and those that are left. -/
theorem Removed.live (h : Removed m m') (hinv : m.maps.Inv) (hn : 0 < m.maps.totalVmas) {i : Int}
    (hlive : m.maps.Live i) :
    i = m.maps.totalVmas - 1 ∨ m'.maps.Live i ∧ m'.maps.vmas i = m.maps.vmas i := by
  obtain ⟨h0, hlt⟩ := hlive
  obtain ⟨-, htotal⟩ := h.inv hinv hn
  by_cases hi : i = m.maps.totalVmas - 1
  · exact .inl hi
  · exact .inr ⟨⟨h0, by omega⟩, h.vmas (by omega)⟩

theorem Removed.live_of_left (h : Removed m m') (hinv : m.maps.Inv) (hn : 0 < m.maps.totalVmas)
    {i : Int} (hlive : m'.maps.Live i) :
    i < m.maps.totalVmas - 1 ∧ m.maps.Live i ∧ m'.maps.vmas i = m.maps.vmas i := by
  obtain ⟨h0, hlt⟩ := hlive
  obtain ⟨-, htotal⟩ := h.inv hinv hn
  rw [htotal] at hlt
  exact ⟨hlt, ⟨h0, by omega⟩, h.vmas hlt⟩

theorem Removed.ranges_perm (h : Removed m m') (hinv : m.maps.Inv) (hn : 0 < m.maps.totalVmas) :
    ((m.lastVma.addr, m.lastVma.len) :: entries m'.maps.range m'.maps.totalVmas).Perm
      (entries m.maps.range m.maps.totalVmas) := by
  have hperm := Table.entries_succ_perm m.maps.range (n := m.maps.totalVmas - 1) (by omega)
  rw [show m.maps.totalVmas - 1 + 1 = m.maps.totalVmas by omega] at hperm
  have hsame : entries m'.maps.range m'.maps.totalVmas =
      entries m.maps.range (m.maps.totalVmas - 1) := by
    rw [(h.inv hinv hn).2]
    refine entries_congr ?_
    intro i _ hi
    unfold Table.range
    rw [h.vmas hi]
  rw [hsame]
  exact hperm.symm

/-- The pages that no entry has are what they were. -/
def KeepsOthers (m m' : Machine) : Prop :=
  ∀ p, (∀ i, m.maps.Live i → ¬ (m.maps.vmas i).HasPage p) → m'.dir.pte p = m.dir.pte p

theorem Removed.keepsOthers (h : Removed m m₁) (hinv : m.maps.Inv) (hn : 0 < m.maps.totalVmas)
    (hrest : KeepsOthers m₁ m') : KeepsOthers m m' := by
  intro p hp
  rw [hrest p, h.outside p (hp _ (Table.Inv.last_live hn))]
  intro i hlive
  obtain ⟨-, hlive', heq⟩ := h.live_of_left hinv hn hlive
  rw [heq]
  exact hp i hlive'

/-- The pages of the last entry stay away while the others are removed. -/
theorem Removed.last_absent (h : Removed m m₁) (hinv : m.maps.Inv) (hn : 0 < m.maps.totalVmas)
    (hrest : KeepsOthers m₁ m') {p : Int} (hp : m.lastVma.HasPage p) : m'.dir.pte p = none := by
  rw [hrest p, h.inside p hp]
  intro i hlive hpi
  obtain ⟨hlt, hlive', heq⟩ := h.live_of_left hinv hn hlive
  rw [heq] at hpi
  have := HasPage.unique hinv (Table.Inv.last_live hn) hlive' hp hpi
  omega

/-- The round that removes the last entry, in front of the rounds that remove the others. -/
theorem Removed.cleared (h : Removed m m₁) (hinv : m.maps.Inv) (hn : 0 < m.maps.totalVmas)
    {calls : List UnmapCall} (hrest : Cleared s' m₁ calls m') (hkeeps : KeepsOthers m₁ m')
    (hsame : s'.regular = s.regular)
    (hwrote : m.lastVma.IsDirty → s.regular m.lastVma.file = true ∧
      UnmapCall.WroteBack ⟨s, m, m.lastVma.addr, m.lastVma.len, 0, m₁⟩ m.lastVma) :
    Cleared s m (⟨s, m, m.lastVma.addr, m.lastVma.len, 0, m₁⟩ :: calls) m' := by
  refine ⟨?_, ?_, ?_, ?_⟩
  · rw [List.map_cons]
    exact (hrest.once.cons _).trans (h.ranges_perm hinv hn)
  · intro c hc
    rcases List.mem_cons.mp hc with rfl | hc
    · rfl
    · exact hrest.succeeded c hc
  · intro i hlive hd
    rcases h.live hinv hn hlive with rfl | ⟨hlive', heq⟩
    · obtain ⟨hregular, hback⟩ := hwrote hd
      exact ⟨hregular, _, List.mem_cons_self, rfl, hback⟩
    · rw [← heq] at hd ⊢
      obtain ⟨hregular, c, hc, hrange, hback⟩ := hrest.written i hlive' hd
      refine ⟨hsame ▸ hregular, c, List.mem_cons_of_mem _ hc, hrange.trans ?_, hback⟩
      unfold Table.range
      rw [heq]
  · intro i hlive p hp
    rcases h.live hinv hn hlive with rfl | ⟨hlive', heq⟩
    · exact h.last_absent hinv hn hkeeps hp
    · exact hrest.absent i hlive' p (by rw [heq]; exact hp)

/-- If every round removes an entry, then all are removed. -/
theorem cleared_of_roundsOk {n : Nat} (hinv : m.maps.Inv) (hn : m.maps.totalVmas = n)
    (hok : RoundsOk n s m) :
    ∃ calls m', clearLoop n s m = .ok (calls, m') ∧ Cleared s m calls m' ∧ KeepsOthers m m' := by
  induction n generalizing s m with
  | zero =>
    have hnone (i : Int) : ¬ m.maps.Live i := fun hlive => by
      have := hlive.1
      have := hlive.2
      omega
    refine ⟨[], m, rfl, ⟨?_, ?_, ?_, ?_⟩, fun _ _ => rfl⟩
    · rw [hn]
      exact List.Perm.refl _
    · intro c hc
      cases hc
    · intro i hlive
      exact absurd hlive (hnone i)
    · intro i hlive
      exact absurd hlive (hnone i)
  | succ n ih =>
    have hpos : 0 < m.maps.totalVmas := by omega
    obtain ⟨hround, hrest⟩ := hok
    obtain ⟨m₁, s₁, hcall⟩ := storage_ok_of_flushes hinv hpos hround.flushes
    obtain ⟨hremoved, hdirty⟩ :=
      removed_of_storage_ok hinv hpos (fun hd => (hround.flushes hd).regular) hcall
    obtain ⟨hinv', htotal⟩ := hremoved.inv hinv hpos
    obtain ⟨calls, m', hloop, hcleared, hkeeps⟩ := ih hinv' (by omega) (hrest m₁ s₁ hcall)
    refine ⟨⟨s, m, m.lastVma.addr, m.lastVma.len, 0, m₁⟩ :: calls, m', ?_,
      hremoved.cleared hinv hpos hcleared hkeeps (Storage.umunmap_regular hcall) fun hd =>
        ⟨(hdirty hd).1.regular, (hdirty hd).2⟩,
      hremoved.keepsOthers hinv hpos hkeeps⟩
    rw [clearLoop, if_pos hround.refCount, hcall]
    simp only
    rw [hloop]

/-- If as many calls are made as there are rounds, and they all succeed, every round removes an
entry. -/
theorem roundsOk_of_calls {n : Nat} {calls : List UnmapCall} (hinv : m.maps.Inv)
    (hn : m.maps.totalVmas = n)
    (hregular : ∀ i, m.maps.Live i → (m.maps.vmas i).IsDirty →
      s.regular (m.maps.vmas i).file = true)
    (hok : clearLoop n s m = .ok (calls, m')) (hlength : calls.length = n)
    (hall : ∀ c ∈ calls, c.result = 0) : RoundsOk n s m := by
  induction n generalizing s m calls with
  | zero => exact trivial
  | succ n ih =>
    have hpos : 0 < m.maps.totalVmas := by omega
    rw [clearLoop] at hok
    by_cases href : m.lastVma.refCount = 0
    · rw [if_pos href] at hok
      cases hcall : s.umunmap m m.lastVma.addr m.lastVma.len with
      | error e =>
        rw [hcall] at hok
        cases hok
      | ok r =>
        obtain ⟨r, m₁, s₁⟩ := r
        rw [hcall] at hok
        simp only at hok
        cases hloop : clearLoop n s₁ m₁ with
        | error e =>
          rw [hloop] at hok
          cases hok
        | ok q =>
          obtain ⟨rest, m₂⟩ := q
          rw [hloop] at hok
          cases hok
          obtain rfl : r = 0 := hall _ List.mem_cons_self
          obtain ⟨hremoved, hdirty⟩ :=
            removed_of_storage_ok hinv hpos (hregular _ (Table.Inv.last_live hpos)) hcall
          obtain ⟨hinv', htotal⟩ := hremoved.inv hinv hpos
          refine ⟨⟨href, fun hd => (hdirty hd).1⟩, ?_⟩
          intro m₃ s₃ hm₃
          cases hcall.symm.trans hm₃
          rw [List.length_cons] at hlength
          refine ih hinv' (by omega) ?_ hloop (by omega)
            fun c hc => hall c (List.mem_cons_of_mem _ hc)
          intro i hlive hd
          obtain ⟨-, hlive', heq⟩ := hremoved.live_of_left hinv hpos hlive
          rw [heq] at hd ⊢
          rw [Storage.umunmap_regular hcall]
          exact hregular i hlive' hd
    · rw [if_neg href] at hok
      have := length_clearLoop hok
      omega

/-- `clear_maps` removes every mapping of a table in order if and only if each of its rounds removes
an entry. -/
theorem clears_iff (s : Storage) (hinv : m.maps.Inv) :
    m.Clears s ↔ RoundsOk m.maps.totalVmas.toNat s m := by
  have hn : m.maps.totalVmas = (m.maps.totalVmas.toNat : Int) := by
    have := hinv.nonneg
    omega
  constructor
  · rintro ⟨calls, m', hok, hcleared, -⟩
    unfold clearMaps at hok
    cases hloop : clearLoop m.maps.totalVmas.toNat s m with
    | error e =>
      rw [hloop] at hok
      cases hok
    | ok q =>
      obtain ⟨calls', m₁⟩ := q
      rw [hloop] at hok
      cases hok
      have hlength := hcleared.once.length_eq
      rw [List.length_map, length_entries] at hlength
      exact roundsOk_of_calls hinv hn (fun i hlive hd => (hcleared.written i hlive hd).1) hloop
        hlength hcleared.succeeded
  · intro hok
    obtain ⟨calls, m', hloop, hcleared, -⟩ := cleared_of_roundsOk hinv hn hok
    refine ⟨calls, { m' with maps := { m'.maps with totalVmas := 0 } }, ?_,
      ⟨hcleared.once, hcleared.succeeded, hcleared.written, ?_⟩, rfl⟩
    · unfold clearMaps
      rw [hloop]
    · exact hcleared.absent

/-! ## The table alone -/

/-- A call for the last entry leaves the table that `Table.umunmap` leaves. -/
theorem umunmap_maps {r : Int} (h : m.maps.Inv) (hn : 0 < m.maps.totalVmas)
    (hregular : m.lastVma.IsDirty → s.regular m.lastVma.file = true)
    (hok : s.umunmap m m.lastVma.addr m.lastVma.len = .ok (r, m', s')) :
    ∃ w, m'.maps = (m.maps.umunmap m.lastVma.addr m.lastVma.len w).2.1 := by
  have hlive := Table.Inv.last_live hn
  cases hwrite : s.writeBack m m.lastVma.addr with
  | error e =>
    unfold Storage.umunmap at hok
    rw [hwrite] at hok
    cases hok
  | ok q =>
    obtain ⟨w, m₁, s₁⟩ := q
    have hmaps : m₁.maps = m.maps := by
      rcases dirtyEntry_last h hn with ⟨hd, -⟩ | ⟨-, hnone⟩
      · have hdirty := dirty_last h hn hd (hregular hd)
        obtain ⟨m₀, hm, hstart⟩ := hdirty.writeBack_ok hwrite
        have hstart' : m₀.maps = m.maps := by
          rcases hstart with ⟨rfl, -⟩ | ⟨⟨c, hload⟩, -⟩
          · rfl
          · exact (hdirty.touched hload).paged.maps hlive
        have hfind : m₀.maps.findVma (u32 (pgroundup m.lastVma.addr)) =
            some (m.maps.totalVmas - 1) := by
          rw [hstart']
          exact h.find_last hn
        have huser : UserEntry m₀.maps (m.maps.totalVmas - 1) := by
          rw [hstart']
          exact h.userEntry _
        have hpaged := (writeBack_wrote huser hfind hm).paged
        exact (hpaged.maps (by rw [hstart']; exact hlive)).trans hstart'
      · unfold Storage.writeBack at hwrite
        rw [hnone] at hwrite
        cases hwrite
        rfl
    unfold Storage.umunmap at hok
    rw [hwrite] at hok
    cases hok
    refine ⟨w, ?_⟩
    rw [(freePages_freed _ _).maps, hmaps]

/-- What a call for the last entry leaves: all the entries, or all but the last one. -/
theorem lastCall_cases (h : m.maps.Inv) (hn : 0 < m.maps.totalVmas) (w : Int) :
    (m.maps.umunmap m.lastVma.addr m.lastVma.len w).2.1 = m.maps ∨
      (m.maps.umunmap m.lastVma.addr m.lastVma.len w).2.1 =
        m.maps.removeEntry (m.maps.totalVmas - 1) := by
  have hfind := h.find_last hn
  cases m.maps.umunmap_cases m.lastVma.addr m.lastVma.len w with
  | failed eq none =>
    left
    rw [eq]
  | removed j removes eq =>
    right
    obtain rfl : m.maps.totalVmas - 1 = j := Option.some.inj (hfind.symm.trans removes.found)
    rw [eq]
  | shortened j finds part eq =>
    obtain rfl : m.maps.totalVmas - 1 = j := Option.some.inj (hfind.symm.trans finds.found)
    exact absurd (h.len_last hn).2.1 (Int.not_le.mpr part)

/-- The rounds that are left look at what the write-backs after this one return. -/
theorem clearLoop_congr {t : Table} {n : Nat} {results results' : Nat → Int}
    (hsame : ∀ k < n, results' k = results k) :
    t.clearLoop results' n = t.clearLoop results n := by
  induction n generalizing t with
  | zero => rfl
  | succ n ih =>
    rw [Table.clearLoop, Table.clearLoop, hsame n (Nat.lt_succ_self n)]
    split
    · exact ih fun k hk => hsame k (Nat.lt_succ_of_lt hk)
    · exact ih fun k hk => hsame k (Nat.lt_succ_of_lt hk)

theorem clearLoop_maps {n : Nat} {calls : List UnmapCall} (h : m.maps.Inv)
    (hn : n ≤ m.maps.totalVmas)
    (hregular : ∀ i, m.maps.Live i → (m.maps.vmas i).IsDirty →
      s.regular (m.maps.vmas i).file = true)
    (hok : clearLoop n s m = .ok (calls, m')) :
    ∃ results, m'.maps = m.maps.clearLoop results n := by
  induction n generalizing s m calls with
  | zero =>
    cases hok
    exact ⟨fun _ => 0, rfl⟩
  | succ n ih =>
    have hpos : 0 < m.maps.totalVmas := by omega
    rw [clearLoop] at hok
    by_cases href : m.lastVma.refCount = 0
    · rw [if_pos href] at hok
      cases hcall : s.umunmap m m.lastVma.addr m.lastVma.len with
      | error e =>
        rw [hcall] at hok
        cases hok
      | ok q =>
        obtain ⟨r, m₁, s₁⟩ := q
        rw [hcall] at hok
        simp only at hok
        cases hloop : clearLoop n s₁ m₁ with
        | error e =>
          rw [hloop] at hok
          cases hok
        | ok q =>
          obtain ⟨rest, m₂⟩ := q
          rw [hloop] at hok
          cases hok
          obtain ⟨w, hmaps⟩ := umunmap_maps h hpos (hregular _ (Table.Inv.last_live hpos)) hcall
          have hleft : m₁.maps.Inv ∧ m.maps.totalVmas - 1 ≤ m₁.maps.totalVmas ∧
              ∀ i, m₁.maps.Live i → m.maps.Live i ∧ m₁.maps.vmas i = m.maps.vmas i := by
            rcases lastCall_cases h hpos w with heq | heq
            · rw [hmaps, heq]
              exact ⟨h, by omega, fun i hlive => ⟨hlive, rfl⟩⟩
            · rw [hmaps, heq]
              have hle := h.le
              refine ⟨h.shiftDown hpos (by omega) (by omega), Int.le_refl _, ?_⟩
              rintro i ⟨h0, hi⟩
              have hi' : i < m.maps.totalVmas - 1 := hi
              exact ⟨⟨h0, by omega⟩, m.maps.removeEntry_last_below hi'⟩
          obtain ⟨hinv, htotal, hsame⟩ := hleft
          obtain ⟨results, hresults⟩ := ih hinv (by omega) (by
            intro i hlive hd
            obtain ⟨hlive', heq⟩ := hsame i hlive
            rw [heq] at hd ⊢
            rw [Storage.umunmap_regular hcall]
            exact hregular i hlive' hd) hloop
          refine ⟨Function.update results n w, ?_⟩
          rw [hresults, Table.clearLoop]
          refine Eq.trans ?_ (if_pos href).symm
          have hbelow : ∀ k < n, Function.update results n w k = results k :=
            fun k hk => Function.update_of_ne (Nat.ne_of_lt hk) _ _
          rw [Function.update_self, clearLoop_congr hbelow, hmaps]
          rfl
    · rw [if_neg href] at hok
      obtain ⟨results, hresults⟩ := ih h (by omega) hregular hok
      refine ⟨results, hresults.trans ?_⟩
      rw [Table.clearLoop]
      exact (if_neg href).symm

/-- `clear_maps` that returns leaves the table that it leaves in a table alone, for what its
write-backs return. -/
theorem clearMaps_maps {calls : List UnmapCall} (h : m.maps.Inv)
    (hregular : ∀ i, m.maps.Live i → (m.maps.vmas i).IsDirty →
      s.regular (m.maps.vmas i).file = true)
    (hok : m.clearMaps s = .ok (calls, m')) :
    ∃ results, m'.maps = m.maps.clearMaps results := by
  have hnonneg := h.nonneg
  unfold clearMaps at hok
  cases hloop : clearLoop m.maps.totalVmas.toNat s m with
  | error e =>
    rw [hloop] at hok
    cases hok
  | ok q =>
    obtain ⟨calls', m₁⟩ := q
    rw [hloop] at hok
    cases hok
    obtain ⟨results, hresults⟩ := clearLoop_maps h (by omega) hregular hloop
    refine ⟨results, ?_⟩
    unfold Table.clearMaps
    rw [← hresults]

end Machine

/-! ## The tables of all processes -/

/-- What happens to the tables of the process table: a call by a process, a `fork` that succeeds,
one that fails when `n` entries have been copied, and the end of a process. -/
inductive ProcEvent where
  | call (p : Fin 64) (c : Table.Call)
  | fork (p q : Fin 64)
  | failedFork (p q : Fin 64) (n : Int)
  | exit (p : Fin 64) (filewrite : Nat → Int)

namespace Table

/-- What `copy_maps` leaves in the slot of the child when it fails behind entry `n`. -/
def copyFirst (t slot : Table) (n : Int) : Table :=
  { slot with vmas := fun i =>
      if 0 ≤ i ∧ i < t.totalVmas ∧ i < n then
        if has (t.vmas i).flags mapShared then
          { copyMmapStruct (slot.vmas i) (t.vmas i) with refCount := 1 }
        else copyMmapStruct (slot.vmas i) (t.vmas i)
      else slot.vmas i }

variable {t slot : Table}

/-- A table that takes ranges from a table in order, up to some index, or as many as are live. -/
theorem Inv.take (h : t.Inv) (hslot : slot.Inv) {u : Table} {n : Int} (hn : n ≤ t.totalVmas)
    (htotal : u.totalVmas = 0 ∨ n = t.totalVmas ∧ u.totalVmas = t.totalVmas)
    (hfirst : ∀ i, 0 ≤ i → i < n → u.spans i = t.spans i)
    (hrest : ∀ i, n ≤ i → u.spans i = slot.spans i) : u.Inv := by
  have hnonneg := h.nonneg
  have hle := h.le
  have hslots (i : Int) (h0 : 0 ≤ i) (hi : i ≤ 32) : (u.spans i).Spare ∨ (u.spans i).Placed := by
    by_cases hlt : i < n
    · rw [hfirst i h0 hlt]
      exact .inr (h.live i h0 (by omega))
    · rw [hrest i (by omega)]
      exact hslot.slot i h0 hi
  rcases htotal with hzero | ⟨rfl, hall⟩
  · exact ⟨by omega, by omega, hslots, fun i h0 hi => by omega, fun i j h0 hij hj => by omega⟩
  · refine ⟨by omega, by omega, hslots, ?_, ?_⟩
    · intro i h0 hi
      rw [hfirst i h0 (by omega)]
      exact h.live i h0 (by omega)
    · rw [hall]
      exact h.sorted.congr fun i h0 hi => hfirst i h0 hi

theorem Inv.copyTable (h : t.Inv) (hslot : slot.Inv) : (copyTable t slot.allocproc).Inv := by
  refine h.take hslot (Int.le_refl _) (.inr ⟨rfl, rfl⟩) ?_ ?_
  · intro i h0 hi
    unfold spans P5.copyTable inherit
    simp only [if_pos (And.intro h0 hi)]
    split
    · rfl
    · split <;> rfl
  · intro i hi
    unfold spans P5.copyTable
    simp only
    rw [if_neg (by omega)]
    rfl

theorem Inv.copyFirst (h : t.Inv) (hslot : slot.Inv) (n : Int) :
    (t.copyFirst slot.allocproc n).Inv := by
  refine h.take hslot (n := min n t.totalVmas) (by omega) (.inl rfl) ?_ ?_
  · intro i h0 hi
    unfold spans Table.copyFirst
    simp only
    rw [if_pos (by omega)]
    split <;> rfl
  · intro i hi
    unfold spans Table.copyFirst
    simp only
    by_cases h0 : 0 ≤ i
    · rw [if_neg (by omega)]
      rfl
    · rw [if_neg (by omega)]
      rfl

/-- The rounds of `clear_maps` keep a table in order, whether they remove an entry or not. -/
theorem Inv.clearLoop (h : t.Inv) (filewrite : Nat → Int) {n : Nat} (hn : n ≤ t.totalVmas) :
    (t.clearLoop filewrite n).Inv := by
  induction n generalizing t with
  | zero => exact h
  | succ n ih =>
    have hpos : 0 < t.totalVmas := by omega
    rw [Table.clearLoop]
    split
    · refine ih ?_ ?_
      · refine h.umunmap ?_
        intro i hi _
        obtain ⟨hlen, hround, -⟩ := h.len_last hpos
        exact ⟨by omega, fun hzero => by omega⟩
      · cases t.umunmap_cases (t.vmas (t.totalVmas - 1)).addr (t.vmas (t.totalVmas - 1)).len
          (filewrite n) with
        | failed eq none =>
          rw [eq]
          show (n : Int) ≤ t.totalVmas
          omega
        | removed i removes eq =>
          rw [eq]
          show (n : Int) ≤ t.totalVmas - 1
          omega
        | shortened i finds part eq =>
          rw [eq]
          show (n : Int) ≤ t.totalVmas
          omega
    · exact ih h (by omega)

theorem Inv.clearMaps (h : t.Inv) (filewrite : Nat → Int) : (t.clearMaps filewrite).Inv := by
  have hnonneg := h.nonneg
  have hloop := h.clearLoop filewrite (n := t.totalVmas.toNat) (by omega)
  exact hloop.take hloop (n := 0) hloop.nonneg (.inl rfl) (fun i h0 hi => by omega)
    fun i _ => rfl

end Table

namespace ProcEvent

/-- The tables after an event. -/
def step (k : Fin 64 → Table) : ProcEvent → Option (Fin 64 → Table)
  | .call p c => some (Function.update k p ((k p).next c))
  | .fork p q => some (Function.update k q (copyTable (k p) (k q).allocproc))
  | .failedFork p q n => some (Function.update k q ((k p).copyFirst (k q).allocproc n))
  | .exit p filewrite => some (Function.update k p ((k p).clearMaps filewrite))

/-- The calls keep their tables in order. -/
def Careful (k : Fin 64 → Table) : ProcEvent → Prop
  | .call p c => (k p).Safe c
  | _ => True

variable {k k₀ k' : Fin 64 → Table} {e : ProcEvent}

theorem step_inv (hinv : ∀ p, (k p).Inv) (hc : Careful k e) (hstep : step k e = some k')
    (r : Fin 64) : (k' r).Inv := by
  have hupdate (q : Fin 64) {u : Table} (hu : u.Inv) : (Function.update k q u r).Inv := by
    by_cases hr : r = q
    · rw [hr, Function.update_self]
      exact hu
    · rw [Function.update_of_ne hr]
      exact hinv r
  cases e with
  | call p c =>
    cases hstep
    exact hupdate p ((hinv p).next hc)
  | fork p q =>
    cases hstep
    exact hupdate q ((hinv p).copyTable (hinv q))
  | failedFork p q n =>
    cases hstep
    exact hupdate q ((hinv p).copyFirst (hinv q) n)
  | exit p filewrite =>
    cases hstep
    exact hupdate p ((hinv p).clearMaps filewrite)

/-- In every run whose calls keep the tables in order, and whatever stands behind the files,
`clear_maps` removes every mapping of a process if and only if each of its rounds finds a slot
without `ref_count` and, where something has to be written back, what a write-back needs. -/
theorem clear_maps_clears_iff {es : List ProcEvent} (hempty : ∀ p, (k₀ p).Empty)
    (run : Run (guarded Careful (stepOf step)) k₀ es k) {p : Fin 64} {m : Machine}
    (hm : m.maps = k p) (s : Storage) : m.Clears s ↔
      Machine.RoundsOk m.maps.totalVmas.toNat s m := by
  have hinv : ∀ p, (k p).Inv := by
    apply run.invariant (fun (k : Fin 64 → Table) => ∀ p, (k p).Inv) fun p => (hempty p).inv
    rintro k₁ e k₂ hinv ⟨hc, hstep⟩ r
    exact step_inv hinv hc hstep r
  exact Machine.clears_iff s (by rw [hm]; exact hinv p)

/-- The tables of a system that has just started. -/
def boot : Fin 64 → Table := fun _ => Table.freshTable

/-- Regular files only, and 100 free blocks. -/
def roomy : Storage where
  regular := fun _ => true
  arrives := fun _ _ _ => .error .panic
  other := fun _ _ _ _ => .error .panic
  free := 100

/-- The theorem at a process that has mapped two pages of a file, shared and writable. -/
theorem clear_maps_clears_two_pages : Unmapping.onesAndTwos.Clears roomy := by
  have hsafe : Careful boot (.call 0 (.ummap 0 8192 protWrite mapShared 0 1)) := by
    intro _
    exact ⟨by decide, fun _ => .inr (by decide), fun h => absurd rfl h,
      fun h => absurd h (by decide)⟩
  have hrun : Run (guarded Careful (stepOf step)) boot
      [.call 0 (.ummap 0 8192 protWrite mapShared 0 1)] _ := Run.nil.snoc ⟨hsafe, rfl⟩
  have hmaps : Unmapping.onesAndTwos.maps = Function.update boot 0
      ((boot 0).next (.ummap 0 8192 protWrite mapShared 0 1)) 0 := by
    rw [Function.update_self]
    rfl
  refine (clear_maps_clears_iff (fun _ => Table.freshTable_empty) hrun hmaps roomy).mpr ?_
  have htotal : Unmapping.onesAndTwos.maps.totalVmas = 1 := by decide +kernel
  have hlast : Unmapping.onesAndTwos.lastVma = Unmapping.onesAndTwos.maps.vmas 0 := by
    unfold Machine.lastVma
    rw [htotal]
    rfl
  have hbacked := Unmapping.onesAndTwos_backed
  rw [htotal]
  have hlen := hbacked.len_pos
  have hend := hbacked.end_le
  have haddr := hbacked.addr_nonneg
  have hk : kernBase = 0x80000000 := rfl
  have hpresent : (Unmapping.onesAndTwos.seek (Unmapping.onesAndTwos.maps.vmas 0).file
      (Unmapping.onesAndTwos.maps.vmas 0).offset).Present (Unmapping.onesAndTwos.maps.vmas 0).addr
      (Unmapping.onesAndTwos.maps.vmas 0).len.toNat := hbacked.present
  -- all pages are present, so that no other file is read
  have hown : roomy.Own (Unmapping.onesAndTwos.seek (Unmapping.onesAndTwos.maps.vmas 0).file
      (Unmapping.onesAndTwos.maps.vmas 0).offset) 0 (Unmapping.onesAndTwos.maps.vmas 0).addr
      (Unmapping.onesAndTwos.maps.vmas 0).len.toNat := by
    refine ⟨hbacked.live, fun _ => ⟨haddr, hend⟩, ?_, ?_⟩
    · intro k hk'
      refine ⟨k, ?_, rfl⟩
      show (k : Int) < (Unmapping.onesAndTwos.maps.vmas 0).len
      omega
    intro k hk' habsent
    rw [u32_of_mem (by omega) (by omega)] at habsent
    exact absurd habsent (hpresent k hk')
  refine ⟨⟨by decide +kernel, fun _ => ⟨rfl, ?_, ?_⟩⟩, fun _ _ _ => trivial⟩
  · rw [hlast]
    have hreads := Machine.loads_eq
      (some (Unmapping.onesAndTwos.file (Unmapping.onesAndTwos.maps.vmas 0).file).ip) hpresent haddr
      (by omega)
    rw [← hown.loads_eq] at hreads
    exact ⟨_, _, Unmapping.onesAndTwos_takes, hreads⟩
  · rw [hlast]
    show Storage.blocks _ ≤ _
    decide +kernel

-- the numerals of `Fin 64`
local instance : NeZero 64 := ⟨by decide⟩

/-- A process maps a page, shared and anonymous, touches it and forks, and the child touches it. -/
def inheriting : List ProcEvent :=
  [.call 0 (.ummap 0 4096 protWrite (mapShared ||| mapAnonymous) 0 0),
    .call 0 (.pgft mmapBase false), .fork 0 1, .call 1 (.pgft mmapBase false)]

/-- The child, whose page is frame 1. -/
def heir (k : Fin 64 → Table) : Machine where
  free := []
  bytes := fun _ _ => 0
  dir := {
    table := fun _ => some 0
    pte := fun p => if p = 0x60000 then some ⟨1, pteW ||| pteU⟩ else none
    backed := fun _ h => nomatch h }
  maps := k 1
  killed := false
  file := fun _ => ⟨true, true, 0, 0⟩
  data := fun _ => []

/-- `clear_maps` of the child makes no call, and the page stays. -/
theorem inherited_not_cleared :
    ¬ ∀ (k₀ k : Fin 64 → Table) (es : List ProcEvent) (p : Fin 64) (m : Machine),
      (∀ q, (k₀ q).Empty) → Run (stepOf step) k₀ es k → m.maps = k p →
        ∀ s : Storage, m.Clears s := by
  intro hall
  have hobs : (runOf step boot inheriting).map
      (fun k => ((k 1).totalVmas, ((k 1).vmas 0).refCount)) = some (1, 1) := by decide +kernel
  obtain ⟨k, hrun, hk⟩ := Option.map_eq_some_iff.mp hobs
  rw [Prod.mk.injEq] at hk
  obtain ⟨calls, m', hok, hcleared, -⟩ := hall boot k inheriting 1 (heir k)
    (fun _ => Table.freshTable_empty) (run_of_runOf hrun) rfl roomy
  have htotal : (heir k).maps.totalVmas = 1 := hk.1
  have href : (heir k).lastVma.refCount ≠ 0 := by
    unfold Machine.lastVma
    rw [htotal]
    show ((k 1).vmas 0).refCount ≠ 0
    rw [hk.2]
    decide
  have hlength := hcleared.once.length_eq
  rw [List.length_map, length_entries, htotal] at hlength
  unfold Machine.clearMaps at hok
  rw [htotal] at hok
  simp only [Int.toNat_one, Machine.clearLoop, if_neg href] at hok
  cases hok
  exact absurd hlength (by decide)

end ProcEvent

end Cs537.P5
