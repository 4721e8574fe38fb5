import Cs537.Lib.Bytes

/-!
# Disk blocks

The blocks of the disk and of the buffer cache, which hold the same kind of contents, and the
superblock. An `unsigned int` in a block is stored little-endian.
-/

namespace Cs537.P5

open Cs537.Lib

/-- `BSIZE` (`fs.h:6`). -/
def bsize : Nat := 512

/-- The bytes of a block. -/
abbrev Block := Fin bsize → UInt8

/-- `struct superblock` (`fs.h:14-22`). -/
structure Superblock where
  size : Nat
  nblocks : Nat
  ninodes : Nat
  nlog : Nat
  logstart : Nat
  inodestart : Nat
  bmapstart : Nat
  deriving DecidableEq, Repr

/-- The superblock that `mkfs` writes (`mkfs.c:23-26`, `94-103`): 1000 blocks and 200 inodes, 8 in a
block. -/
def Superblock.mkfs : Superblock where
  size := 1000
  nblocks := 1000 - (2 + 30 + (200 / 8 + 1) + (1000 / (512 * 8) + 1))
  ninodes := 200
  nlog := 30
  logstart := 2
  inodestart := 2 + 30
  bmapstart := 2 + 30 + (200 / 8 + 1)

namespace Block

variable {b : Block} {o n i j : Nat} {bs : Bytes} {v : UInt32}

/-- The bytes by offset; there is nothing behind the block. -/
def mem (b : Block) : Mem := fun i => if h : i < bsize then b ⟨i, h⟩ else 0

/-- A block from a memory. -/
def ofMem (m : Mem) : Block := fun i => m i

/-- `memmove(b->data + o, bs, |bs|)`. -/
def write (b : Block) (o : Nat) (bs : Bytes) : Block := ofMem (b.mem.write o bs)

/-- The `n` bytes from offset `o` on. -/
def slice (b : Block) (o n : Nat) : Bytes := b.mem.slice o n

/-- `((uint*)b->data)[i]`. -/
def word (b : Block) (i : Nat) : UInt32 := b.mem.u32 (4 * i)

/-- `((uint*)b->data)[i] = v`. -/
def setWord (b : Block) (i : Nat) (v : UInt32) : Block := b.write (4 * i) (le32 v)

/-- `memset(b->data, 0, BSIZE)`. -/
def zero : Block := fun _ => 0

theorem mem_write (h : o + bs.length ≤ bsize) : (b.write o bs).mem = b.mem.write o bs := by
  funext k
  by_cases hk : k < bsize
  · simp only [mem, write, ofMem, hk, dif_pos]
  · have hout : b.mem.write o bs k = b.mem k := Mem.write_of_ge (by omega)
    rw [hout]
    simp only [mem, hk, dif_neg, not_false_eq_true]

theorem word_setWord (hi : i < 128) : (b.setWord i v).word i = v := by
  have hfits : 4 * i + (le32 v).length ≤ bsize := by
    rw [length_le32]
    unfold bsize
    omega
  refine Mem.u32_of_slice ?_
  have hread := Mem.slice_write_self b.mem (4 * i) (le32 v)
  rw [length_le32] at hread
  rw [setWord, mem_write hfits, hread]

theorem word_setWord_of_ne (hi : i < 128) (hij : j ≠ i) : (b.setWord i v).word j = b.word j := by
  have hfits : 4 * i + (le32 v).length ≤ bsize := by
    rw [length_le32]
    unfold bsize
    omega
  refine Mem.u32_congr ?_
  intro a hlo hhi
  rw [setWord, mem_write hfits]
  refine Mem.write_of_disjoint ?_
  rw [length_le32]
  omega

end Block

end Cs537.P5
