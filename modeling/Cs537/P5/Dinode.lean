import Cs537.P5.Blocks

/-!
# Inodes on the disk

The format of `struct dinode`, eight to a block, and the functions that write inodes. The inodes in
memory are kept in the same form; `ilock` reads them and `iupdate` writes them through.
-/

namespace Cs537.P5

open Cs537.Lib

/-- The addresses in an inode: `NDIRECT` blocks and the block of the other addresses. -/
abbrev Addrs := Fin 13 → UInt32

/-- `struct dinode` (`fs.h`). -/
structure Dinode where
  type : UInt16
  major : UInt16
  minor : UInt16
  nlink : UInt16
  size : UInt32
  addrs : Addrs

namespace Dinode

variable {m : Mem} {o : Nat} {d : Dinode}

/-- After `memset(dip, 0, sizeof(*dip)); dip->type = type`. -/
def fresh (type : UInt16) : Dinode := ⟨type, 0, 0, 0, 0, fun _ => 0⟩

def bytes (d : Dinode) : Bytes :=
  le16 d.type ++ (le16 d.major ++ (le16 d.minor ++ (le16 d.nlink ++ (le32 d.size ++
    (List.ofFn d.addrs).flatMap le32))))

def ofMem (m : Mem) (o : Nat) : Dinode where
  type := m.u16 o
  major := m.u16 (o + 2)
  minor := m.u16 (o + 4)
  nlink := m.u16 (o + 6)
  size := m.u32 (o + 8)
  addrs k := m.u32 (o + (12 + 4 * k))

theorem length_flatMap_le32 (ws : List UInt32) : (ws.flatMap le32).length = 4 * ws.length := by
  induction ws with
  | nil => rfl
  | cons w ws ih =>
    rw [List.flatMap_cons, List.length_append, ih, length_le32, List.length_cons]
    omega

theorem length_bytes (d : Dinode) : d.bytes.length = 64 := by
  unfold bytes
  simp only [List.length_append, length_le16, length_le32, length_flatMap_le32, List.length_ofFn]

/-- Bytes in a row are read one part after the other. -/
theorem slice_split {n k : Nat} {bs cs : Bytes} (h : m.slice o (n + k) = bs ++ cs)
    (hbs : bs.length = n) : m.slice o n = bs ∧ m.slice (o + n) k = cs := by
  rw [Mem.slice_add] at h
  exact List.append_inj h (by rw [Mem.length_slice, hbs])

/-- Reading an inode back. -/
theorem ofMem_of_slice (h : m.slice o 64 = d.bytes) : ofMem m o = d := by
  obtain ⟨htype, h⟩ := slice_split (n := 2) (k := 62) h (length_le16 _)
  obtain ⟨hmajor, h⟩ := slice_split (n := 2) (k := 60) h (length_le16 _)
  obtain ⟨hminor, h⟩ := slice_split (n := 2) (k := 58) h (length_le16 _)
  obtain ⟨hnlink, h⟩ := slice_split (n := 2) (k := 56) h (length_le16 _)
  obtain ⟨hsize, h⟩ := slice_split (n := 4) (k := 52) h (length_le32 _)
  have haddrs : ∀ k : Fin 13, m.u32 (o + (12 + 4 * k)) = d.addrs k := by
    intro k
    have hword : (List.ofFn d.addrs)[k.val]? = some (d.addrs k) := by
      rw [List.getElem?_ofFn, dif_pos k.isLt]
    refine Mem.u32_of_slice ?_
    have hpart := Mem.slice_drop_take m (o + 2 + 2 + 2 + 2 + 4) (a := 4 * k) (k := 4) (n := 52)
      (by omega)
    rw [h, flatMap_le32_word hword] at hpart
    rw [hpart]
    congr 1
    omega
  unfold ofMem
  cases d with
  | mk type major minor nlink size addrs =>
    rw [Mem.u16_of_slice htype, Mem.u16_of_slice hmajor, Mem.u16_of_slice hminor,
      Mem.u16_of_slice hnlink, Mem.u32_of_slice hsize, funext haddrs]

/-- An inode depends on its 64 bytes only. -/
theorem ofMem_congr {m' : Mem} (h : ∀ i < 64, m (o + i) = m' (o + i)) : ofMem m o = ofMem m' o := by
  have hslice : ∀ a k, a + k ≤ 64 → m.slice (o + a) k = m'.slice (o + a) k := by
    intro a k hak
    refine Mem.slice_congr fun i hi => ?_
    rw [Nat.add_assoc]
    exact h _ (by omega)
  unfold ofMem Mem.u16 Mem.u32
  congr 1
  · exact congrArg _ (congrArg _ (hslice 0 2 (by omega)))
  · rw [hslice 2 2 (by omega)]
  · rw [hslice 4 2 (by omega)]
  · rw [hslice 6 2 (by omega)]
  · rw [hslice 8 4 (by omega)]
  · funext k
    rw [hslice _ 4 (by omega)]

end Dinode

/-! ## Inode blocks -/

/-- `IBLOCK(i, sb)` (`fs.h`). -/
def Superblock.iblock (sb : Superblock) (inum : Nat) : Nat := inum / 8 + sb.inodestart

namespace Fs

variable {sb : Superblock} {s s' : Fs} {i j inum : Nat} {d : Dinode}

/-- What `ilock` (`fs.c:287-312`) reads. -/
def dinode (sb : Superblock) (disk : Nat → Block) (inum : Nat) : Dinode :=
  .ofMem (disk (sb.iblock inum)).mem (inum % 8 * 64)

/-- `iupdate` (`fs.c:220-236`). -/
def iupdate (sb : Superblock) (s : Fs) (inum : Nat) (ip : Dinode) : Fs :=
  s.logWrite (sb.iblock inum) ((s.disk (sb.iblock inum)).write (inum % 8 * 64) ip.bytes)

/-- `ialloc` (`fs.c:194-214`). -/
def ialloc (sb : Superblock) (s : Fs) (type : UInt16) : Option (Fs × Nat) :=
  ((List.range' 1 (sb.ninodes - 1)).find? fun inum => (dinode sb s.disk inum).type = 0).map
    fun inum => (iupdate sb s inum (.fresh type), inum)

/-- What `iupdate` writes is what `ilock` reads, and the other inodes stay as they are. -/
theorem dinode_iupdate (s : Fs) (i j : Nat) (d : Dinode) :
    dinode sb (iupdate sb s i d).disk j = if j = i then d else dinode sb s.disk j := by
  have hfits : i % 8 * 64 + d.bytes.length ≤ bsize := by
    rw [Dinode.length_bytes]
    unfold bsize
    omega
  unfold dinode iupdate
  by_cases hblock : sb.iblock j = sb.iblock i
  · rw [hblock, disk_logWrite_self, Block.mem_write hfits]
    by_cases hji : j = i
    · rw [if_pos hji, hji]
      have hself := Mem.slice_write_self (s.disk (sb.iblock i)).mem (i % 8 * 64) d.bytes
      rw [Dinode.length_bytes] at hself
      exact Dinode.ofMem_of_slice hself
    · rw [if_neg hji]
      unfold Superblock.iblock at hblock
      refine Dinode.ofMem_congr fun a ha => Mem.write_of_disjoint ?_
      rw [Dinode.length_bytes]
      omega
  · have hji : j ≠ i := by
      rintro rfl
      exact hblock rfl
    rw [if_neg hji, disk_logWrite_of_ne _ _ hblock]

theorem iblock_lt (hsb : sb.LaidOut) (h : inum < sb.ninodes) :
    sb.inodestart ≤ sb.iblock inum ∧ sb.iblock inum < sb.bmapstart := by
  have hle := hsb.inodes
  unfold Superblock.iblock
  omega

/-- `ialloc` takes an inode that is free. -/
theorem ialloc_some {type : UInt16} (h : ialloc sb s type = some (s', inum)) :
    0 < inum ∧ inum < sb.ninodes ∧ (dinode sb s.disk inum).type = 0 ∧
      s' = iupdate sb s inum (.fresh type) := by
  obtain ⟨k, hk, heq⟩ := Option.map_eq_some_iff.mp h
  cases heq
  have hmem := List.mem_of_find?_eq_some hk
  rw [List.mem_range'_1] at hmem
  have hfree := List.find?_some hk
  exact ⟨hmem.1, by omega, of_decide_eq_true hfree, rfl⟩

end Fs

end Cs537.P5
