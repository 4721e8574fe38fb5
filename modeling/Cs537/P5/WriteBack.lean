import Cs537.P5.FilePages
import Cs537.P5.Unmapping

/-!
# What `umunmap` writes back

`umunmap` of a shared mapping that is writable and not anonymous writes the whole mapping to the
file, from the offset of the entry on, before it frees the pages it was asked for. What it leaves
out is to move the offset on when it takes the front off the mapping: the next call writes what is
left to the same place again. So a mapping arrives in the file if it is removed by a single call.
-/

namespace Cs537.P5

open Cs537.Lib

namespace Machine

variable {m m' : Machine}

/-- The bytes from an address on. -/
def memory (m : Machine) (va : Int) (n : Nat) : List UInt8 :=
  (List.range n).map fun (k : Nat) => (m.byteAt (va + k)).getD 0

/-- The pages of a range are all present. -/
def Present (m : Machine) (va : Int) (n : Nat) : Prop :=
  ∀ k < n, m.dir.pte (pageOf (va + k)) ≠ none

/-! ## Reading the memory -/

theorem length_memory (m : Machine) (va : Int) (n : Nat) : (m.memory va n).length = n := by
  simp only [memory, List.length_map, List.length_range]

theorem memory_succ (m : Machine) (va : Int) (n : Nat) :
    m.memory va (n + 1) = (m.byteAt va).getD 0 :: m.memory (va + 1) n := by
  unfold memory
  rw [List.range_succ_eq_map, List.map_cons, List.map_map]
  congr 1
  · rw [show va + ((0 : Nat) : Int) = va by omega]
  · refine List.map_congr_left ?_
    intro k _
    simp only [Function.comp]
    rw [show va + ((k.succ : Nat) : Int) = va + 1 + k by omega]

theorem memory_add (m : Machine) (va : Int) (n k : Nat) :
    m.memory va (n + k) = m.memory va n ++ m.memory (va + n) k := by
  induction n generalizing va with
  | zero =>
    rw [Nat.zero_add, show va + ((0 : Nat) : Int) = va by omega]
    rfl
  | succ n ih =>
    rw [Nat.add_right_comm, memory_succ, memory_succ, ih, List.cons_append,
      show va + 1 + (n : Int) = va + ((n + 1 : Nat) : Int) by omega]

/-- The memory is in the page directory and the frames. -/
theorem memory_congr (hdir : m'.dir = m.dir) (hbytes : m'.bytes = m.bytes) (va : Int) (n : Nat) :
    m'.memory va n = m.memory va n := by
  unfold memory byteAt
  rw [hdir, hbytes]

/-- Where all pages are present, the kernel reads the memory as it is. -/
theorem loads_eq (locked : Option Nat) {va : Int} {n : Nat} (hpresent : m.Present va n)
    (h0 : 0 ≤ va) (hhi : va + n ≤ 2 ^ 32) :
    m.loads locked va n = .ok (m.memory va n, m) := by
  induction n generalizing va with
  | zero => rfl
  | succ n ih =>
    have hfirst := hpresent 0 (Nat.succ_pos n)
    rw [show va + ((0 : Nat) : Int) = va by omega] at hfirst
    obtain ⟨e, hpte⟩ := Option.ne_none_iff_exists'.mp hfirst
    have hload : m.load locked (u32 va) = .ok ((m.byteAt va).getD 0, m) := by
      rw [u32_of_mem h0 (by omega)]
      unfold load byteAt
      rw [hpte]
      rfl
    have hrest : m.Present (va + 1) n := by
      intro k hk
      have := hpresent (k + 1) (Nat.succ_lt_succ hk)
      rwa [show va + ((k + 1 : Nat) : Int) = va + 1 + k by omega] at this
    rw [loads, hload]
    simp only
    rw [ih hrest (by omega) (by omega), memory_succ]

/-! ## Writing the file -/

/-- The machine after `n` bytes from an address on were written to a file at its offset. -/
def written (m : Machine) (f : UInt32) (addr : Int) (n : Nat) : Machine :=
  { m with
    data := Function.update m.data (m.file f).ip
      (splice (m.data (m.file f).ip) (m.file f).off.toNat (m.memory addr n)) }.seek f
    ((m.file f).off + n)

/-- What `filewrite` checks. -/
structure Fits (m : Machine) (f : UInt32) (n : Nat) : Prop where
  off_nonneg : 0 ≤ (m.file f).off
  off_le : (m.file f).off ≤ (m.data (m.file f).ip).length
  end_le : (m.file f).off + n ≤ maxFileSize

/-- The end of what is written is not beyond the range of an unsigned number. -/
theorem Fits.u32_end {f : UInt32} {n : Nat} (hfits : m.Fits f n) :
    u32 ((m.file f).off + n) = (m.file f).off + n := by
  have hoff := hfits.off_nonneg
  have hend := hfits.end_le
  have hmax : maxFileSize = 71680 := rfl
  exact u32_of_mem (by omega) (by omega)

/-- If the checks pass, `writei` reads the memory and writes what it has read. -/
theorem Fits.writei {f : UInt32} {n : Nat} (hfits : m.Fits f n) (addr : Int) :
    m.writei (m.file f).ip addr (m.file f).off n =
      match m.loads (some (m.file f).ip) addr n with
      | .error e => .error e
      | .ok (bs, m₁) => .ok (true, { m₁ with
          data := Function.update m₁.data (m.file f).ip
            (splice (m₁.data (m.file f).ip) (m.file f).off.toNat bs) }) := by
  have hend := hfits.end_le
  have hinside : ¬ (((m.data (m.file f).ip).length : Int) < (m.file f).off ∨
      u32 ((m.file f).off + n) < (m.file f).off) := by
    have hle := hfits.off_le
    rw [hfits.u32_end]
    omega
  have hsmall : ¬ maxFileSize < u32 ((m.file f).off + n) := by
    rw [hfits.u32_end]
    omega
  exact (if_neg hinside).trans (if_neg hsmall)

theorem writei_eq {f : UInt32} {addr : Int} {n : Nat} (hfits : m.Fits f n)
    (hpresent : m.Present addr n) (h0 : 0 ≤ addr) (hhi : addr + n ≤ 2 ^ 32) :
    m.writei (m.file f).ip addr (m.file f).off n = .ok (true, { m with
      data := Function.update m.data (m.file f).ip
        (splice (m.data (m.file f).ip) (m.file f).off.toNat (m.memory addr n)) }) := by
  rw [hfits.writei, loads_eq _ hpresent h0 hhi]

theorem written_file (m : Machine) (f : UInt32) (addr : Int) (n : Nat) :
    (m.written f addr n).file f = { m.file f with off := u32 ((m.file f).off + n) } :=
  Function.update_self _ _ _

theorem written_data (m : Machine) (f : UInt32) (addr : Int) (n : Nat) :
    (m.written f addr n).data (m.file f).ip =
      splice (m.data (m.file f).ip) (m.file f).off.toNat (m.memory addr n) :=
  Function.update_self _ _ _

/-- Writing in two parts. -/
theorem written_written {f : UInt32} {addr : Int} {n k : Nat} (hfits : m.Fits f n) :
    (m.written f addr n).written f (addr + n) k = m.written f addr (n + k) := by
  have hoff := hfits.off_nonneg
  have hle := hfits.off_le
  have hend := hfits.end_le
  have hmax : maxFileSize = 71680 := rfl
  have hsum : u32 ((m.file f).off + n) = (m.file f).off + n := u32_of_mem (by omega) (by omega)
  have hin : (m.file f).off.toNat ≤ (m.data (m.file f).ip).length := by omega
  have hplace : ((m.file f).off + n).toNat = (m.file f).off.toNat + (m.memory addr n).length := by
    rw [length_memory]
    omega
  have hmemory : (m.written f addr n).memory (addr + n) k = m.memory (addr + n) k :=
    memory_congr rfl rfl _ _
  -- the second part goes behind the first one
  have hdata : splice ((m.written f addr n).data (m.file f).ip) ((m.file f).off + n).toNat
      (m.memory (addr + n) k) =
      splice (m.data (m.file f).ip) (m.file f).off.toNat (m.memory addr (n + k)) := by
    rw [written_data, hplace, splice_splice _ _ hin, ← memory_add]
  have hfile : (m.written f addr n).file f = { m.file f with off := (m.file f).off + n } := by
    rw [written_file, hsum]
  have hall : (m.file f).off + (n : Int) + (k : Int) = (m.file f).off + ((n + k : Nat) : Int) := by
    omega
  conv_lhs => rw [written]
  rw [hmemory, hfile]
  simp only [hdata, hall, seek, hfile]
  simp only [written, seek, Function.update_idem]

/-- A round of the loop of `filewrite`. -/
theorem writeLoop_succ {f : UInt32} (fuel : Nat) {addr : Int} {n : Nat}
    (hfits : m.Fits f (min n maxChunk)) (hpresent : m.Present addr n) (h0 : 0 ≤ addr)
    (hhi : addr + n ≤ 2 ^ 32) (hpos : 0 < n) :
    writeLoop f (fuel + 1) m addr n =
      writeLoop f fuel (m.written f addr (min n maxChunk)) (addr + (min n maxChunk : Nat))
        (n - min n maxChunk) := by
  rw [writeLoop, if_neg (by omega)]
  simp only
  rw [writei_eq hfits (fun k hk => hpresent k (by omega)) h0 (by omega)]
  rfl

theorem Present.drop {addr : Int} {n n1 : Nat} (h : m.Present addr n) (hle : n1 ≤ n) (f : UInt32) :
    (m.written f addr n1).Present (addr + n1) (n - n1) := by
  intro k hk
  have := h (n1 + k) (by omega)
  rwa [show addr + ((n1 + k : Nat) : Int) = addr + n1 + k by omega] at this

/-- The loop of `filewrite` writes what is in memory. -/
theorem writeLoop_eq {f : UInt32} {fuel : Nat} {addr : Int} {n : Nat} (hfuel : n ≤ fuel)
    (hfits : m.Fits f n) (hpresent : m.Present addr n) (h0 : 0 ≤ addr) (hhi : addr + n ≤ 2 ^ 32)
    (hpos : 0 < n) : writeLoop f fuel m addr n = .ok (true, m.written f addr n) := by
  induction fuel generalizing m addr n with
  | zero => omega
  | succ fuel ih =>
    have hoff := hfits.off_nonneg
    have hle := hfits.off_le
    have hend := hfits.end_le
    have hmax : maxFileSize = 71680 := rfl
    have hchunk : 0 < min n maxChunk ∧ min n maxChunk ≤ n := by
      unfold maxChunk
      omega
    have hpart : m.Fits f (min n maxChunk) := ⟨hoff, hle, by omega⟩
    rw [writeLoop_succ fuel hpart hpresent h0 hhi hpos]
    generalize hn1 : min n maxChunk = n1 at *
    by_cases hlast : n - n1 = 0
    · have hall : n1 = n := by omega
      rw [hlast, hall]
      cases fuel with
      | zero => rfl
      | succ fuel => rfl
    · have hdata := written_data m f addr n1
      have hfile := written_file m f addr n1
      have hsum : u32 ((m.file f).off + n1) = (m.file f).off + n1 :=
        u32_of_mem (by omega) (by omega)
      have hin : (m.file f).off.toNat ≤ (m.data (m.file f).ip).length := by omega
      have hlength := length_splice (m.memory addr n1) hin
      rw [length_memory] at hlength
      have hfits' : (m.written f addr n1).Fits f (n - n1) := by
        refine ⟨?_, ?_, ?_⟩
        · rw [hfile]
          simp only
          omega
        · rw [hfile]
          simp only
          rw [hdata, hlength]
          omega
        · rw [hfile]
          simp only
          omega
      rw [ih (by omega) hfits' (hpresent.drop hchunk.2 f) (by omega) (by omega) (by omega), written_written hpart,
        show n1 + (n - n1) = n by omega]

/-- Nothing is written where the checks of `writei` fail. -/
theorem writei_refused {f : UInt32} (addr : Int) {n : Nat} (hfits : ¬ m.Fits f n)
    (hoff : 0 ≤ (m.file f).off) (hoff' : (m.file f).off < 2 ^ 32) (hn : n < 2 ^ 32) :
    m.writei (m.file f).ip addr (m.file f).off n = .ok (false, m) := by
  have hmax : maxFileSize = 71680 := rfl
  unfold writei
  by_cases hbehind : ((m.data (m.file f).ip).length : Int) < (m.file f).off ∨
      u32 ((m.file f).off + n) < (m.file f).off
  · rw [if_pos hbehind]
  · have hlarge : maxFileSize < u32 ((m.file f).off + n) := by
      by_contra hsmall
      refine hfits ⟨hoff, by omega, ?_⟩
      unfold u32 at hbehind hsmall
      omega
    rw [if_neg hbehind, if_pos hlarge]

/-- The loop of `filewrite` stops where the file is full. -/
theorem writeLoop_refused {f : UInt32} {fuel : Nat} {addr : Int} {n : Nat} (hfuel : n ≤ fuel)
    (hfits : ¬ m.Fits f n) (hpresent : m.Present addr n) (h0 : 0 ≤ addr) (hhi : addr + n ≤ 2 ^ 32)
    (hpos : 0 < n) (hoff : 0 ≤ (m.file f).off) (hoff' : (m.file f).off < 2 ^ 32) :
    ∃ m', writeLoop f fuel m addr n = .ok (false, m') ∧ m'.maps = m.maps ∧ m'.dir = m.dir := by
  induction fuel generalizing m addr n with
  | zero => omega
  | succ fuel ih =>
    have hmax : maxFileSize = 71680 := rfl
    have hchunk : 0 < min n maxChunk ∧ min n maxChunk ≤ n ∧ min n maxChunk ≤ 1536 := by
      unfold maxChunk
      omega
    by_cases hpart : m.Fits f (min n maxChunk)
    · rw [writeLoop_succ fuel hpart hpresent h0 hhi hpos]
      generalize hn1 : min n maxChunk = n1 at *
      have hend := hpart.end_le
      have hfile := written_file m f addr n1
      have hsum : u32 ((m.file f).off + n1) = (m.file f).off + n1 :=
        u32_of_mem (by omega) (by omega)
      have hfits' : ¬ (m.written f addr n1).Fits f (n - n1) := by
        intro hrest
        have hend' := hrest.end_le
        rw [hfile] at hend'
        simp only at hend'
        exact hfits ⟨hoff, hpart.off_le, by omega⟩
      have hmore : 0 < n - n1 := by
        by_contra hlast
        exact hfits ⟨hoff, hpart.off_le, by omega⟩
      exact ih (by omega) hfits' (hpresent.drop hchunk.2.1 f) (by omega) (by omega) hmore
        (by rw [hfile]; simp only; omega) (by rw [hfile]; simp only; omega)
    · rw [writeLoop, if_neg (by omega)]
      simp only
      rw [writei_refused addr hpart hoff hoff' (by omega)]
      exact ⟨m, rfl, rfl, rfl⟩

/-! ## One call -/

/-- A shared, writable mapping of a file, which `umunmap` finds and whose pages are all present. -/
structure Backed (m : Machine) (i : Int) : Prop where
  live : m.maps.Live i
  found : m.maps.findVma (m.maps.vmas i).addr = some i
  aligned : pgsize ∣ (m.maps.vmas i).addr
  addr_nonneg : 0 ≤ (m.maps.vmas i).addr
  len_pos : 0 < (m.maps.vmas i).len
  end_le : (m.maps.vmas i).addr + (m.maps.vmas i).len ≤ kernBase
  offset_mem : -2 ^ 31 ≤ (m.maps.vmas i).offset ∧ (m.maps.vmas i).offset < 2 ^ 31
  shared : has (m.maps.vmas i).flags mapShared = true
  isFile : has (m.maps.vmas i).flags mapAnonymous = false
  writable : has (m.maps.vmas i).prot protWrite = true
  present : m.Present (m.maps.vmas i).addr (m.maps.vmas i).len.toNat

/-- The file takes what is written back. -/
structure Takes (m : Machine) (v : Vma) : Prop where
  writable : (m.file v.file).writable = true
  fits : (m.seek v.file v.offset).Fits v.file v.len.toNat

/-- The machine after a mapping was written back. -/
def flushed (m : Machine) (v : Vma) : Machine :=
  (m.seek v.file v.offset).written v.file v.addr v.len.toNat

theorem seek_off (m : Machine) (f : UInt32) (off : Int) :
    (m.seek f off).file f = { m.file f with off := u32 off } := Function.update_self _ _ _

theorem flushed_data (m : Machine) (v : Vma) :
    (m.flushed v).data = Function.update m.data (m.file v.file).ip
      (splice (m.fileData v) (u32 v.offset).toNat (m.memory v.addr v.len.toNat)) := by
  have hmemory : (m.seek v.file v.offset).memory v.addr v.len.toNat =
      m.memory v.addr v.len.toNat := memory_congr rfl rfl _ _
  have hdata : (m.flushed v).data = Function.update m.data
      ((m.seek v.file v.offset).file v.file).ip
      (splice (m.data ((m.seek v.file v.offset).file v.file).ip)
        ((m.seek v.file v.offset).file v.file).off.toNat
        ((m.seek v.file v.offset).memory v.addr v.len.toNat)) := rfl
  rw [hdata, seek_off, hmemory]
  rfl

theorem Takes.offset {v : Vma} (h : m.Takes v) (hlo : -2 ^ 31 ≤ v.offset)
    (hhi : v.offset < 2 ^ 31) :
    u32 v.offset = v.offset ∧ 0 ≤ v.offset ∧ v.offset.toNat ≤ (m.fileData v).length := by
  have hmax : maxFileSize = 71680 := rfl
  have hle := h.fits.off_le
  have hend := h.fits.end_le
  rw [seek_off] at hle hend
  have hle : u32 v.offset ≤ (m.fileData v).length := hle
  simp only at hend
  unfold u32 at *
  omega

section Backed

variable {i : Int}

theorem Backed.u32_addr (h : m.Backed i) :
    u32 (pgroundup (m.maps.vmas i).addr) = (m.maps.vmas i).addr := by
  have hk : kernBase = 0x80000000 := rfl
  have h0 := h.addr_nonneg
  have hlen := h.len_pos
  have hend := h.end_le
  rw [pgroundup_of_dvd h.aligned (by omega) (by omega), u32_of_mem h0 (by omega)]

theorem Backed.finds (h : m.Backed i) {filewrite : Int} (hwrite : 0 ≤ filewrite) :
    m.maps.Finds (m.maps.vmas i).addr filewrite i := by
  have hlen := h.len_pos
  refine ⟨?_, by omega, ?_⟩
  · rw [h.u32_addr]
    exact h.found
  · rintro ⟨-, -, -, hfailed⟩
    omega

theorem Backed.dirtyEntry_eq (h : m.Backed i) :
    dirtyEntry m.maps (m.maps.vmas i).addr = some (m.maps.vmas i) := by
  have hlen := h.len_pos
  unfold dirtyEntry
  rw [h.u32_addr, h.found]
  simp only
  rw [if_pos]
  exact ⟨by omega, h.shared, by rw [h.isFile]; exact Bool.false_ne_true, h.writable⟩

/-- The write-back, if the file takes it. -/
theorem Backed.writeBack_eq (h : m.Backed i) (htakes : m.Takes (m.maps.vmas i)) :
    m.writeBack (m.maps.vmas i).addr =
      .ok ((m.maps.vmas i).len, m.flushed (m.maps.vmas i)) := by
  have hk : kernBase = 0x80000000 := rfl
  have hlen := h.len_pos
  have hend := h.end_le
  have hwritable : ((m.seek (m.maps.vmas i).file (m.maps.vmas i).offset).file
      (m.maps.vmas i).file).writable = true := by
    rw [seek_off]
    exact htakes.writable
  have hloop := writeLoop_eq (Nat.le_refl _) htakes.fits h.present h.addr_nonneg (by omega)
    (by omega)
  unfold writeBack
  rw [h.dirtyEntry_eq]
  simp only [filewrite, hwritable, not_true_eq_false, if_false]
  rw [if_neg (by omega), hloop]
  simp only [if_true]
  rfl

/-- If the file does not take it, the write-back fails. -/
theorem Backed.writeBack_refused (h : m.Backed i) (htakes : ¬ m.Takes (m.maps.vmas i)) :
    ∃ m', m.writeBack (m.maps.vmas i).addr = .ok (-1, m') ∧ m'.maps = m.maps ∧
      m'.dir = m.dir := by
  have hk : kernBase = 0x80000000 := rfl
  have hlen := h.len_pos
  have hend := h.end_le
  have hfile := seek_off m (m.maps.vmas i).file (m.maps.vmas i).offset
  unfold writeBack
  rw [h.dirtyEntry_eq]
  simp only [filewrite]
  by_cases hwritable : ((m.seek (m.maps.vmas i).file (m.maps.vmas i).offset).file
      (m.maps.vmas i).file).writable = true
  · have hfits : ¬ (m.seek (m.maps.vmas i).file (m.maps.vmas i).offset).Fits
        (m.maps.vmas i).file (m.maps.vmas i).len.toNat := by
      intro hfits
      rw [hfile] at hwritable
      exact htakes ⟨hwritable, hfits⟩
    obtain ⟨m', hloop, hmaps, hdir⟩ := writeLoop_refused (Nat.le_refl _) hfits h.present
      h.addr_nonneg (by omega) (by omega)
      (by rw [hfile]; simp only [u32]; omega) (by rw [hfile]; simp only [u32]; omega)
    rw [if_neg (not_not.mpr hwritable), if_neg (by omega), hloop]
    exact ⟨m', rfl, hmaps, hdir⟩
  · rw [if_pos hwritable]
    exact ⟨_, rfl, rfl, rfl⟩

/-- A call that removes something of the mapping has written all of it back. -/
theorem Backed.umunmap_eq (h : m.Backed i) (htakes : m.Takes (m.maps.vmas i)) (length : Int) :
    ∃ m', m.umunmap (m.maps.vmas i).addr length = .ok (0, m') ∧
      Freed { m.flushed (m.maps.vmas i) with
        maps := (m.maps.umunmap (m.maps.vmas i).addr length (m.maps.vmas i).len).2.1 } m'
        (m.maps.umunmap (m.maps.vmas i).addr length (m.maps.vmas i).len).2.2 := by
  have hresult := (h.finds (Int.le_of_lt h.len_pos)).result length
  unfold umunmap
  rw [h.writeBack_eq htakes]
  simp only
  rw [show (m.flushed (m.maps.vmas i)).maps = m.maps from rfl, hresult]
  exact ⟨_, rfl, freePages_freed _ _⟩

theorem Backed.takes (h : m.Backed i) {length : Int}
    (hok : m.umunmap (m.maps.vmas i).addr length = .ok (0, m')) : m.Takes (m.maps.vmas i) := by
  by_contra htakes
  obtain ⟨m₁, hwrite, hmaps, -⟩ := h.writeBack_refused htakes
  unfold umunmap at hok
  rw [hwrite] at hok
  simp only [hmaps, Except.ok.injEq, Prod.mk.injEq] at hok
  cases m.maps.umunmap_cases (m.maps.vmas i).addr length (-1) with
  | failed eq none =>
    rw [eq] at hok
    exact absurd (show (-1 : Int) = 0 from hok.1) (by decide)
  | removed j removes eq =>
    obtain rfl : i = j := Option.some.inj
      ((h.finds (Int.le_refl 0)).found.symm.trans removes.finds.found)
    exact removes.finds.written ⟨h.shared, by rw [h.isFile]; exact Bool.false_ne_true, h.writable,
      by decide⟩
  | shortened j finds part eq =>
    obtain rfl : i = j := Option.some.inj
      ((h.finds (Int.le_refl 0)).found.symm.trans finds.found)
    exact finds.written ⟨h.shared, by rw [h.isFile]; exact Bool.false_ne_true, h.writable,
      by decide⟩

end Backed

end Machine

/-! ## Removing a mapping from the front -/

/-- A mapping that is being removed: where what is left of it begins, how long that is, and the
bytes that were removed, as they were in memory then. -/
structure Unmapping where
  machine : Machine
  front : Int
  left : Nat
  removed : List UInt8

/-- What the process does: it writes to the mapping, or takes off the front of it. -/
inductive Piece where
  | store (va : Int) (c : UInt8)
  | umunmap (length : Int)

namespace Unmapping

variable {s s' : Unmapping} {m₀ : Machine} {i : Int}

/-- The start, with mapping `i`. -/
def start (m : Machine) (i : Int) : Unmapping :=
  ⟨m, (m.maps.vmas i).addr, (m.maps.vmas i).len.toNat, []⟩

/-- The state after an event. A call has a positive length and removes what it says. -/
def next (s : Unmapping) : Piece → Option Unmapping
  | .store va c =>
    if s.front ≤ va ∧ va < s.front + s.left then
      (s.machine.store va [c]).toOption.map fun m => { s with machine := m }
    else none
  | .umunmap length =>
    if 0 < length ∧ length < 2 ^ 31 ∧ 0 < s.left then
      let n := min (alignUp pgsize length).toNat s.left
      match s.machine.umunmap s.front length with
      | .ok (0, m) => some ⟨m, s.front + n, s.left - n, s.removed ++ s.machine.memory s.front n⟩
      | _ => none
    else none

/-- A call removes all that is left. -/
def Whole (s : Unmapping) : Piece → Prop
  | .store _ _ => True
  | .umunmap length => s.left ≤ pgroundup length

/-- The file holds what was removed, each byte at its place in the mapping, and nothing else of it,
or of another file, has changed. -/
structure WrittenBack (m₀ : Machine) (v : Vma) (s : Unmapping) : Prop where
  offset_nonneg : 0 ≤ v.offset
  length : s.removed.length = v.len
  inside : ∀ k < s.removed.length,
    (s.machine.data (m₀.file v.file).ip)[v.offset.toNat + k]? = s.removed[k]?
  outside : ∀ j, j < v.offset.toNat ∨ v.offset.toNat + s.removed.length ≤ j →
    (s.machine.data (m₀.file v.file).ip)[j]? = (m₀.fileData v)[j]?
  others : ∀ ip, ip ≠ (m₀.file v.file).ip → s.machine.data ip = m₀.data ip

/-- Nothing was removed yet. -/
structure Before (m₀ : Machine) (i : Int) (s : Unmapping) : Prop where
  front : s.front = (m₀.maps.vmas i).addr
  left : s.left = (m₀.maps.vmas i).len.toNat
  removed : s.removed = []
  maps : s.machine.maps = m₀.maps
  dir : s.machine.dir = m₀.dir
  file : s.machine.file = m₀.file
  data : s.machine.data = m₀.data

theorem Before.backed (h : Before m₀ i s) (hmap : m₀.Backed i) : s.machine.Backed i := by
  have hpresent := hmap.present
  unfold Machine.Present at hpresent
  rw [← h.dir] at hpresent
  obtain ⟨hlive, hfound, haligned, h0, hlen, hend, hoffset, hshared, hfile, hwritable, -⟩ := hmap
  rw [← h.maps] at hlive hfound haligned h0 hlen hend hoffset hshared hfile hwritable hpresent
  exact ⟨hlive, hfound, haligned, h0, hlen, hend, hoffset, hshared, hfile, hwritable, hpresent⟩

/-- Writing to the mapping. -/
theorem Before.store {va : Int} {c : UInt8} (h : Before m₀ i s)
    (hnext : s.next (.store va c) = some s') : Before m₀ i s' := by
  simp only [next] at hnext
  split at hnext
  · rcases s.machine.store_cases va [c] with ⟨-, bytes, hstore⟩ | ⟨-, herror⟩
    · rw [hstore] at hnext
      cases hnext
      exact ⟨h.front, h.left, h.removed, h.maps, h.dir, h.file, h.data⟩
    · rw [herror] at hnext
      cases hnext
  · cases hnext

/-- What a call leads to. -/
theorem next_umunmap {length : Int} (hnext : s.next (.umunmap length) = some s') :
    0 < length ∧ length < 2 ^ 31 ∧ 0 < s.left ∧
      ∃ m, s.machine.umunmap s.front length = .ok (0, m) ∧
        s' = ⟨m, s.front + (min (alignUp pgsize length).toNat s.left : Nat),
          s.left - min (alignUp pgsize length).toNat s.left,
          s.removed ++ s.machine.memory s.front (min (alignUp pgsize length).toNat s.left)⟩ := by
  simp only [next] at hnext
  split at hnext
  · rename_i hcall
    split at hnext
    · rename_i m hok
      cases hnext
      exact ⟨hcall.1, hcall.2.1, hcall.2.2, m, hok, rfl⟩
    · cases hnext
  · cases hnext

/-- Removing the whole mapping. -/
theorem Before.umunmap {length : Int} (h : Before m₀ i s) (hmap : m₀.Backed i)
    (hwhole : s.left ≤ pgroundup length) (hnext : s.next (.umunmap length) = some s') :
    s'.left = 0 ∧ WrittenBack m₀ (m₀.maps.vmas i) s' := by
  have hbacked := h.backed hmap
  obtain ⟨hpos, hmax, hleft, m, hok, rfl⟩ := next_umunmap hnext
  rw [h.front, ← h.maps] at hok
  have htakes := hbacked.takes hok
  obtain ⟨m', hok', hfreed⟩ := hbacked.umunmap_eq htakes length
  cases hok.symm.trans hok'
  have hdata : m.data = _ := hfreed.data.trans (s.machine.flushed_data (s.machine.maps.vmas i))
  obtain ⟨hoff, hoff0, hin⟩ := htakes.offset hbacked.offset_mem.1 hbacked.offset_mem.2
  have hround := (Table.alignUp_mem hpos hmax).2.2.1
  have hmin : min (alignUp pgsize length).toNat s.left = s.left := by omega
  have hlen := hmap.len_pos
  have hleft' := h.left
  unfold Machine.fileData at hdata hin
  rw [h.maps, h.file, h.data] at hdata hin
  rw [h.maps] at hoff hoff0
  rw [hoff, ← h.left, ← h.front] at hdata
  have hremoved : s.removed ++ s.machine.memory s.front (min (alignUp pgsize length).toNat s.left) =
      s.machine.memory s.front s.left := by
    rw [h.removed, hmin, List.nil_append]
  rw [hremoved, hmin]
  refine ⟨by simp only; omega, hoff0, ?_, ?_, ?_, ?_⟩
  · simp only [Machine.length_memory]
    omega
  · intro k hk
    simp only [hdata, Function.update_self]
    exact getElem?_splice hin hk
  · intro j hj
    simp only [hdata, Function.update_self]
    exact getElem?_splice_outside hin hj
  · intro ip hip
    simp only [hdata]
    exact Function.update_of_ne hip _ _

/-- In every run whose calls each remove all that is left of the mapping, the file holds the memory
of the mapping as it was when it was removed. -/
theorem written_back {es : List Piece} (hmap : m₀.Backed i)
    (run : Run (guarded Whole (stepOf next)) (start m₀ i) es s) (hdone : s.left = 0) :
    WrittenBack m₀ (m₀.maps.vmas i) s := by
  have hlen := hmap.len_pos
  have hinv : Before m₀ i s ∨ s.left = 0 ∧ WrittenBack m₀ (m₀.maps.vmas i) s := by
    refine run.invariant (fun s => Before m₀ i s ∨ s.left = 0 ∧ WrittenBack m₀ (m₀.maps.vmas i) s)
      (.inl ⟨rfl, rfl, rfl, rfl, rfl, rfl, rfl⟩) ?_
    rintro t e u (hbefore | ⟨hnone, -⟩) ⟨hwhole, hnext⟩
    · cases e with
      | store va c => exact .inl (hbefore.store hnext)
      | umunmap length => exact .inr (hbefore.umunmap hmap hwhole hnext)
    · -- nothing is left to be written to or removed
      cases e with
      | store va c =>
        simp only [stepOf, next] at hnext
        rw [if_neg (by omega)] at hnext
        cases hnext
      | umunmap length =>
        obtain ⟨-, -, hleft, -⟩ := next_umunmap hnext
        omega
  rcases hinv with hbefore | ⟨-, hwritten⟩
  · have := hbefore.left
    omega
  · exact hwritten

/-- A process that has mapped two pages of an empty file, shared and writable, and has filled the
first one with ones and the second one with twos. -/
def onesAndTwos : Machine where
  free := []
  bytes := fun f _ => if f = 1 then 1 else 2
  dir := {
    table := fun _ => some 0
    pte := fun p => if p = 0x60000 then some ⟨1, pteW ||| pteU⟩
      else if p = 0x60001 then some ⟨2, pteW ||| pteU⟩ else none
    backed := fun _ h => nomatch h }
  maps := Table.freshTable.next (.ummap 0 8192 protWrite mapShared 0 1)
  killed := false
  file := fun _ => ⟨true, true, 0, 0⟩
  data := fun _ => []

theorem onesAndTwos_backed : onesAndTwos.Backed 0 := by
  have haddr : (onesAndTwos.maps.vmas 0).addr = 0x60000000 := by decide +kernel
  have hlen : (onesAndTwos.maps.vmas 0).len = 8192 := by decide +kernel
  refine ⟨⟨Int.le_refl 0, by decide +kernel⟩, by decide +kernel, ⟨0x60000, by decide +kernel⟩,
    by decide +kernel, by decide +kernel, by decide +kernel, by decide +kernel, by decide +kernel,
    by decide +kernel, by decide +kernel, ?_⟩
  intro k hk
  rw [hlen] at hk
  rw [haddr]
  simp only [onesAndTwos]
  have hpage : pageOf (0x60000000 + (k : Int)) = 0x60000 ∨
      pageOf (0x60000000 + (k : Int)) = 0x60001 := by
    unfold pageOf pgsize
    omega
  rcases hpage with h | h
  · rw [h]
    decide
  · rw [h]
    decide

theorem onesAndTwos_takes : onesAndTwos.Takes (onesAndTwos.maps.vmas 0) :=
  ⟨rfl, by decide +kernel, by decide +kernel, by decide +kernel⟩

/-- A call that succeeds. -/
theorem next_of_umunmap {length : Int} {m : Machine} (hpos : 0 < length) (hmax : length < 2 ^ 31)
    (hleft : 0 < s.left) (hok : s.machine.umunmap s.front length = .ok (0, m)) :
    s.next (.umunmap length) = some ⟨m, s.front + (min (alignUp pgsize length).toNat s.left : Nat),
      s.left - min (alignUp pgsize length).toNat s.left,
      s.removed ++ s.machine.memory s.front (min (alignUp pgsize length).toNat s.left)⟩ := by
  simp only [next]
  rw [if_pos ⟨hpos, hmax, hleft⟩, hok]
  rfl

/-- The theorem at a mapping that is removed at once. -/
theorem written_back_two_pages :
    ∃ s, Run (guarded Whole (stepOf next)) (start onesAndTwos 0) [.umunmap 8192] s ∧
      s.left = 0 ∧ WrittenBack onesAndTwos (onesAndTwos.maps.vmas 0) s := by
  obtain ⟨m, hok, -⟩ := onesAndTwos_backed.umunmap_eq onesAndTwos_takes 8192
  have hnext := next_of_umunmap (s := start onesAndTwos 0) (by decide) (by decide)
    (by decide +kernel) hok
  have hwhole : Whole (start onesAndTwos 0) (.umunmap 8192) := by
    show ((start onesAndTwos 0).left : Int) ≤ pgroundup 8192
    decide +kernel
  have hleft : (start onesAndTwos 0).left - min (alignUp pgsize 8192).toNat
      (start onesAndTwos 0).left = 0 := by decide +kernel
  have hrun : Run (guarded Whole (stepOf next)) (start onesAndTwos 0) [.umunmap 8192] _ :=
    Run.nil.snoc ⟨hwhole, hnext⟩
  exact ⟨_, hrun, hleft, written_back onesAndTwos_backed hrun hleft⟩

/-- What is left when the first page was removed: a mapping of the second page, still at offset 0. -/
structure SecondPage (m : Machine) : Prop where
  area : (m.maps.vmas 0).toArea = ⟨0x60001000, 4096, pteU ||| protWrite, mapShared, 1, 0⟩
  live : m.maps.Live 0
  found : m.maps.findVma 0x60001000 = some 0
  pte : m.dir.pte 0x60001 = some ⟨2, pteW ||| pteU⟩
  bytes : m.bytes 2 0 = 2
  file : m.file 1 = ⟨true, true, 0, 8192⟩

theorem onesAndTwos_first :
    ∃ m, (start onesAndTwos 0).next (.umunmap 4096) =
      some ⟨m, 0x60001000, 4096, onesAndTwos.memory mmapBase 4096⟩ ∧ SecondPage m := by
  obtain ⟨m, hok, hfreed⟩ := onesAndTwos_backed.umunmap_eq onesAndTwos_takes 4096
  have hnext := next_of_umunmap (s := start onesAndTwos 0) (by decide) (by decide)
    (by decide +kernel) hok
  have hfront : (start onesAndTwos 0).front + (min (alignUp pgsize 4096).toNat
      (start onesAndTwos 0).left : Nat) = 0x60001000 := by decide +kernel
  have hleft : (start onesAndTwos 0).left - min (alignUp pgsize 4096).toNat
      (start onesAndTwos 0).left = 4096 := by decide +kernel
  have hmin : min (alignUp pgsize 4096).toNat (start onesAndTwos 0).left = 4096 := by
    decide +kernel
  have hbase : (start onesAndTwos 0).front = mmapBase := by decide +kernel
  have hremoved : (start onesAndTwos 0).removed ++
      (start onesAndTwos 0).machine.memory mmapBase 4096 = onesAndTwos.memory mmapBase 4096 :=
    List.nil_append _
  rw [hfront, hleft, hmin, hbase, hremoved] at hnext
  have hpages : (onesAndTwos.maps.umunmap (onesAndTwos.maps.vmas 0).addr 4096
      (onesAndTwos.maps.vmas 0).len).2.2.map pageOf = [0x60000] := by decide +kernel
  refine ⟨m, hnext, ?_, ⟨Int.le_refl 0, ?_⟩, ?_, ?_, ?_, ?_⟩
  · rw [hfreed.maps]
    decide +kernel
  · rw [hfreed.maps]
    decide +kernel
  · rw [hfreed.maps]
    decide +kernel
  · rw [hfreed.pte]
    decide +kernel
  · rw [hfreed.bytes 2]
    · rfl
    · intro p hp e he
      rw [hpages, List.mem_singleton] at hp
      rw [hp] at he
      cases he
      decide
  · rw [hfreed.file]
    decide +kernel

theorem SecondPage.backed {m : Machine} (h : SecondPage m) : m.Backed 0 := by
  have haddr : (m.maps.vmas 0).addr = 0x60001000 := congrArg Area.addr h.area
  have hlen : (m.maps.vmas 0).len = 4096 := congrArg Area.len h.area
  have hoffset : (m.maps.vmas 0).offset = 0 := congrArg Area.offset h.area
  have hflags : (m.maps.vmas 0).flags = mapShared := congrArg Area.flags h.area
  have hprot : (m.maps.vmas 0).prot = pteU ||| protWrite := congrArg Area.prot h.area
  refine ⟨h.live, by rw [haddr]; exact h.found, ⟨0x60001, by rw [haddr]; decide⟩,
    by rw [haddr]; decide, by rw [hlen]; decide, by rw [haddr, hlen]; decide,
    by rw [hoffset]; decide, by rw [hflags]; decide, by rw [hflags]; decide,
    by rw [hprot]; decide, ?_⟩
  intro k hk
  rw [hlen] at hk
  have hpage : pageOf ((m.maps.vmas 0).addr + k) = 0x60001 := by
    rw [haddr]
    unfold pageOf pgsize
    omega
  rw [hpage, h.pte]
  exact Option.some_ne_none _

theorem SecondPage.takes {m : Machine} (h : SecondPage m) : m.Takes (m.maps.vmas 0) := by
  have hlen : (m.maps.vmas 0).len = 4096 := congrArg Area.len h.area
  have hoffset : (m.maps.vmas 0).offset = 0 := congrArg Area.offset h.area
  have hfile : (m.maps.vmas 0).file = 1 := congrArg Area.file h.area
  refine ⟨by rw [hfile, h.file], ?_, ?_, ?_⟩
  all_goals rw [Machine.seek_off, hoffset]
  · exact Int.le_refl 0
  · exact Int.natCast_nonneg _
  · rw [hlen]
    exact (by decide : (4096 : Int) ≤ maxFileSize)

/-- Removed page by page, the second page is written over the first one. -/
theorem second_page_over_first :
    ¬ ∀ (m₀ : Machine) (i : Int) (es : List Piece) (s : Unmapping), m₀.Backed i →
      Run (stepOf next) (start m₀ i) es s → s.left = 0 → WrittenBack m₀ (m₀.maps.vmas i) s := by
  intro hall
  obtain ⟨m₁, hnext₁, hsecond⟩ := onesAndTwos_first
  have haddr : (m₁.maps.vmas 0).addr = 0x60001000 := congrArg Area.addr hsecond.area
  have hfile : (m₁.maps.vmas 0).file = 1 := congrArg Area.file hsecond.area
  have hoffset : (m₁.maps.vmas 0).offset = 0 := congrArg Area.offset hsecond.area
  have hlen : (m₁.maps.vmas 0).len = 4096 := congrArg Area.len hsecond.area
  obtain ⟨m₂, hok, hfreed⟩ := hsecond.backed.umunmap_eq hsecond.takes 4096
  have hdata : m₂.data = _ := hfreed.data.trans (m₁.flushed_data (m₁.maps.vmas 0))
  rw [hfile, hsecond.file, hoffset, haddr, hlen] at hdata
  rw [haddr] at hok
  have hnext₂ := next_of_umunmap
    (s := ⟨m₁, 0x60001000, 4096, onesAndTwos.memory mmapBase 4096⟩) (by decide) (by decide)
    (show 0 < 4096 by decide) hok
  have hwritten := hall onesAndTwos 0 _ _ onesAndTwos_backed (.snoc (.snoc .nil hnext₁) hnext₂)
    (show 4096 - min (alignUp pgsize 4096).toNat 4096 = 0 by decide)
  -- the first byte that was removed is a one, and the first byte of the file a two
  have hone : (onesAndTwos.memory mmapBase 4096)[0]? = some 1 := by
    rw [Machine.memory_succ]
    decide +kernel
  have htwo : (m₁.memory 0x60001000 4096)[0]? = some 2 := by
    rw [Machine.memory_succ, List.getElem?_cons_zero, Machine.byteAt,
      show pageOf 0x60001000 = 0x60001 by decide, hsecond.pte, Option.map_some,
      show Machine.pageOffset 0x60001000 = 0 by decide, hsecond.bytes, Option.getD_some]
  have hplace : (onesAndTwos.maps.vmas 0).offset.toNat + 0 = 0 := by decide +kernel
  have hip : (onesAndTwos.file (onesAndTwos.maps.vmas 0).file).ip = 0 := rfl
  have hfirst := hwritten.inside 0 (by
    simp only [List.length_append, Machine.length_memory]
    omega)
  simp only at hfirst
  rw [hplace, hip, hdata, Function.update_self,
    List.getElem?_append_left (by rw [Machine.length_memory]; decide), hone] at hfirst
  have hover := getElem?_splice (k := 0) (Nat.zero_le (m₁.fileData (m₁.maps.vmas 0)).length)
    (show 0 < (m₁.memory 0x60001000 4096).length by rw [Machine.length_memory]; decide)
  rw [htwo] at hover
  cases hfirst.symm.trans hover

end Unmapping

end Cs537.P5
