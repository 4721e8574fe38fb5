import Cs537.Lib.Bitmap
import Cs537.P5.Disk

/-!
# Free blocks

The contents of the disk as the file system sees them through the buffer cache, and the bitmap of
the blocks in use. `panic` ends a function without a result.
-/

namespace Cs537.P5

open Cs537.Lib

/-- `BPB` (`fs.h`). -/
def bpb : Nat := bsize * 8

/-- `BBLOCK(b, sb)` (`fs.h`). -/
def Superblock.bblock (sb : Superblock) (b : Nat) : Nat := b / bpb + sb.bmapstart

/-- The first block behind the bitmap, as `mkfs` lays the disk out. -/
def Superblock.datastart (sb : Superblock) : Nat := sb.bmapstart + (sb.size / bpb + 1)

/-- The inode blocks come before the bitmap, and that before the data. -/
structure Superblock.LaidOut (sb : Superblock) : Prop where
  inodes : sb.inodestart + (sb.ninodes / 8 + 1) ≤ sb.bmapstart
  size : sb.datastart ≤ sb.size
  size_lt : sb.size < 2 ^ 32

theorem Superblock.bmapstart_lt (sb : Superblock) : sb.bmapstart < sb.datastart :=
  Nat.lt_add_of_pos_right (Nat.succ_pos _)

namespace Block

variable {b : Block} {i j : Nat}

def setBit (b : Block) (i : Nat) : Block := ofMem (b.mem.setBit i)

def clearBit (b : Block) (i : Nat) : Block := ofMem (b.mem.clearBit i)

def bit (b : Block) (i : Nat) : Bool := b.mem.bit i

theorem mem_ofMem {m : Mem} (h : i < bsize) : (ofMem m).mem i = m i := by
  simp only [mem, ofMem, h, dif_pos]

theorem bit_ofMem {m : Mem} (h : i < bpb) : (ofMem m).bit i = m.bit i :=
  Mem.bit_congr (mem_ofMem (by unfold bpb at h; omega))

theorem bit_setBit (hj : j < bpb) : (b.setBit i).bit j = if j = i then true else b.bit j := by
  unfold setBit
  rw [bit_ofMem hj]
  by_cases hji : j = i
  · rw [if_pos hji, hji, Mem.bit_setBit_self]
  · rw [if_neg hji, Mem.bit_setBit_of_ne _ hji]
    rfl

theorem bit_clearBit (hj : j < bpb) : (b.clearBit i).bit j = if j = i then false else b.bit j := by
  unfold clearBit
  rw [bit_ofMem hj]
  by_cases hji : j = i
  · rw [if_pos hji, hji, Mem.bit_clearBit_self]
  · rw [if_neg hji, Mem.bit_clearBit_of_ne _ hji]
    rfl

end Block

/-- The blocks, and those handed to `log_write` so far. -/
structure Fs where
  disk : Nat → Block
  logged : List Nat

namespace Fs

variable {sb : Superblock} {s s' : Fs} {b c n : Nat} {blk : Block}

/-- A buffer is changed and handed to `log_write`. -/
def logWrite (s : Fs) (n : Nat) (blk : Block) : Fs where
  disk := Function.update s.disk n blk
  logged := s.logged ++ [n]

theorem disk_logWrite_self (s : Fs) (n : Nat) (blk : Block) : (s.logWrite n blk).disk n = blk :=
  Function.update_self ..

theorem disk_logWrite_of_ne (s : Fs) (blk : Block) (h : b ≠ n) :
    (s.logWrite n blk).disk b = s.disk b := Function.update_of_ne h ..

/-- `bzero` (`fs.c:42-51`). -/
def bzero (s : Fs) (n : Nat) : Fs := s.logWrite n .zero

/-- Is block `b` marked in the bitmap? -/
def used (sb : Superblock) (disk : Nat → Block) (b : Nat) : Bool :=
  (disk (sb.bblock b)).bit (b % bpb)

/-- The search of `balloc` for a free block, one block of the bitmap after the other. -/
def findFree (sb : Superblock) (disk : Nat → Block) : Option Nat :=
  (List.range ((sb.size + (bpb - 1)) / bpb)).findSome? fun k =>
    ((List.range bpb).find? fun bi =>
      k * bpb + bi < sb.size ∧ (disk (sb.bblock (k * bpb))).bit bi = false).map (k * bpb + ·)

/-- `balloc` (`fs.c:56-78`). -/
def balloc (sb : Superblock) (s : Fs) : Option (Fs × Nat) :=
  (findFree sb s.disk).map fun b =>
    ((s.logWrite (sb.bblock b) ((s.disk (sb.bblock b)).setBit (b % bpb))).bzero b, b)

/-- `bfree` (`fs.c:81-95`). -/
def bfree (sb : Superblock) (s : Fs) (b : Nat) : Option Fs :=
  if used sb s.disk b then
    some (s.logWrite (sb.bblock b) ((s.disk (sb.bblock b)).clearBit (b % bpb)))
  else none

theorem mod_bpb_lt (b : Nat) : b % bpb < bpb := Nat.mod_lt _ (by decide)

/-- Two blocks are marked in different places. -/
theorem bblock_mod_ne (hne : c ≠ b) (hblock : sb.bblock c = sb.bblock b) : c % bpb ≠ b % bpb := by
  intro hmod
  unfold Superblock.bblock at hblock
  have hdiv : c / bpb = b / bpb := Nat.add_right_cancel hblock
  have hc := Nat.div_add_mod c bpb
  have hb := Nat.div_add_mod b bpb
  rw [hdiv, hmod, hb] at hc
  exact hne hc.symm

/-- Marking a block, or clearing its mark, leaves the other marks alone. -/
theorem used_update (sb : Superblock) (disk : Nat → Block) (b : Nat) (blk : Block)
    (hothers : ∀ j < bpb, j ≠ b % bpb → blk.bit j = (disk (sb.bblock b)).bit j) (c : Nat) :
    used sb (Function.update disk (sb.bblock b) blk) c =
      if c = b then blk.bit (b % bpb) else used sb disk c := by
  unfold used
  by_cases hc : c = b
  · rw [if_pos hc, hc, Function.update_self]
  · rw [if_neg hc]
    by_cases hblock : sb.bblock c = sb.bblock b
    · rw [hblock, Function.update_self, hothers _ (mod_bpb_lt c) (bblock_mod_ne hc hblock)]
    · rw [Function.update_of_ne hblock]

theorem used_congr {disk disk' : Nat → Block} (h : disk' (sb.bblock c) = disk (sb.bblock c)) :
    used sb disk' c = used sb disk c := by
  unfold used
  rw [h]

theorem bblock_mul_add (sb : Superblock) (k : Nat) {bi : Nat} (hbi : bi < bpb) :
    sb.bblock (k * bpb + bi) = sb.bblock (k * bpb) ∧ (k * bpb + bi) % bpb = bi := by
  have hpos : 0 < bpb := by decide
  constructor
  · unfold Superblock.bblock
    rw [Nat.mul_comm, Nat.mul_add_div hpos, Nat.div_eq_of_lt hbi, Nat.mul_div_cancel_left _ hpos,
      Nat.add_zero]
  · rw [Nat.mul_comm, Nat.mul_add_mod, Nat.mod_eq_of_lt hbi]

theorem findFree_some {disk : Nat → Block} (h : findFree sb disk = some b) :
    b < sb.size ∧ used sb disk b = false := by
  obtain ⟨k, -, hk⟩ := List.exists_of_findSome?_eq_some h
  obtain ⟨bi, hbi, rfl⟩ := Option.map_eq_some_iff.mp hk
  have hfound := List.find?_some hbi
  have hlt := List.mem_range.mp (List.mem_of_find?_eq_some hbi)
  rw [decide_eq_true_eq] at hfound
  obtain ⟨hblock, hmod⟩ := bblock_mul_add sb k hlt
  refine ⟨hfound.1, ?_⟩
  unfold used
  rw [hblock, hmod]
  exact hfound.2

/-- `balloc` finds no block just if all are marked. -/
theorem findFree_none {disk : Nat → Block} :
    findFree sb disk = none ↔ ∀ b < sb.size, used sb disk b = true := by
  have hpos : 0 < bpb := by decide
  unfold findFree
  rw [List.findSome?_eq_none_iff]
  constructor
  · intro h b hb
    have hdiv : b / bpb < (sb.size + (bpb - 1)) / bpb := by
      rw [Nat.div_lt_iff_lt_mul hpos]
      have hceil := Nat.lt_div_mul_add (a := sb.size + (bpb - 1)) hpos
      omega
    have hnone := h (b / bpb) (List.mem_range.mpr hdiv)
    rw [Option.map_eq_none_iff, List.find?_eq_none] at hnone
    have hbit := hnone (b % bpb) (List.mem_range.mpr (mod_bpb_lt b))
    obtain ⟨hblock, -⟩ := bblock_mul_add sb (b / bpb) (mod_bpb_lt b)
    rw [Nat.mul_comm, Nat.div_add_mod] at hbit hblock
    rw [decide_eq_true_eq, not_and, Bool.not_eq_false] at hbit
    unfold used
    rw [hblock, Nat.mul_comm]
    rw [Nat.mul_comm] at hbit
    exact hbit hb
  · intro h k _
    rw [Option.map_eq_none_iff, List.find?_eq_none]
    intro bi hbi
    rw [decide_eq_true_eq, not_and, Bool.not_eq_false]
    intro hlt
    obtain ⟨hblock, hmod⟩ := bblock_mul_add sb k (List.mem_range.mp hbi)
    have hused := h _ hlt
    unfold used at hused
    rw [hblock, hmod] at hused
    exact hused

/-! ## What the allocator does -/

theorem bblock_lt (h : b < sb.size) : sb.bmapstart ≤ sb.bblock b ∧ sb.bblock b < sb.datastart := by
  have hdiv : b / bpb ≤ sb.size / bpb := Nat.div_le_div_right (Nat.le_of_lt h)
  refine ⟨Nat.le_add_left _ _, ?_⟩
  unfold Superblock.bblock Superblock.datastart
  rw [Nat.add_comm]
  exact Nat.add_lt_add_left (Nat.lt_succ_of_le hdiv) _

/-- What `balloc` has done when it returns block `b`. -/
structure Allocated (sb : Superblock) (s s' : Fs) (b : Nat) : Prop where
  ge : sb.datastart ≤ b
  lt : b < sb.size
  free : used sb s.disk b = false
  used : ∀ c < sb.size, used sb s'.disk c = if c = b then true else used sb s.disk c
  zero : s'.disk b = .zero
  others : ∀ c, c ≠ b → (c < sb.bmapstart ∨ sb.datastart ≤ c) → s'.disk c = s.disk c
  logged : s'.logged = s.logged ++ [sb.bblock b, b]

theorem allocated_balloc (hmeta : ∀ c < sb.datastart, used sb s.disk c = true)
    (h : balloc sb s = some (s', b)) : Allocated sb s s' b := by
  obtain ⟨b', hfind, heq⟩ := Option.map_eq_some_iff.mp h
  cases heq
  obtain ⟨hlt, hfree⟩ := findFree_some hfind
  have hge : sb.datastart ≤ b := by
    refine Nat.le_of_not_lt fun hmetab => ?_
    rw [hmeta b hmetab] at hfree
    cases hfree
  have hblock := (bblock_lt hlt).2
  refine ⟨hge, hlt, hfree, fun c hc => ?_, disk_logWrite_self .., fun c hcb hc => ?_, ?_⟩
  · have hc' : sb.bblock c ≠ b := by
      have := (bblock_lt hc).2
      omega
    refine (used_congr (disk_logWrite_of_ne _ _ hc')).trans ?_
    refine (used_update sb s.disk b _ (fun j hj hjb => ?_) c).trans ?_
    · rw [Block.bit_setBit hj, if_neg hjb]
    · rw [Block.bit_setBit (mod_bpb_lt b), if_pos rfl]
  · refine (disk_logWrite_of_ne _ _ hcb).trans (disk_logWrite_of_ne _ _ ?_)
    have := bblock_lt hlt
    omega
  · show s.logged ++ [sb.bblock b] ++ [b] = _
    rw [List.append_assoc]
    rfl

theorem balloc_isSome : (balloc sb s).isSome ↔ ∃ b < sb.size, used sb s.disk b = false := by
  unfold balloc
  rw [Option.isSome_map, Option.isSome_iff_ne_none, ne_eq, findFree_none]
  push Not
  simp only [ne_eq, Bool.not_eq_true]

/-- What `bfree` has done. -/
structure Released (sb : Superblock) (s s' : Fs) (b : Nat) : Prop where
  marked : used sb s.disk b = true
  used : ∀ c, used sb s'.disk c = if c = b then false else used sb s.disk c
  others : ∀ c, c ≠ sb.bblock b → s'.disk c = s.disk c
  logged : s'.logged = s.logged ++ [sb.bblock b]

theorem released_bfree (h : bfree sb s b = some s') : Released sb s s' b := by
  unfold bfree at h
  rw [Option.ite_none_right_eq_some, Option.some.injEq] at h
  obtain ⟨hmarked, rfl⟩ := h
  refine ⟨hmarked, fun c => ?_, fun c hc => disk_logWrite_of_ne _ _ hc, rfl⟩
  refine (used_update sb s.disk b _ (fun j hj hjb => ?_) c).trans ?_
  · rw [Block.bit_clearBit hj, if_neg hjb]
  · rw [Block.bit_clearBit (mod_bpb_lt b), if_pos rfl]

/-- `bfree` does not panic on a block that is marked. -/
theorem bfree_isSome : (bfree sb s b).isSome ↔ used sb s.disk b = true := by
  unfold bfree
  rw [Option.isSome_iff_exists]
  constructor
  · rintro ⟨s', h⟩
    exact (Option.ite_none_right_eq_some.mp h).1
  · intro h
    exact ⟨_, if_pos h⟩

end Fs

end Cs537.P5
