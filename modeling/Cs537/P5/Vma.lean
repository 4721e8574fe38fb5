import Cs537.Lib.CInt
import Cs537.Lib.Slots

/-!
# The table of mappings of `sys_mmap.c`

`struct proc` holds `vmas[32]` and `total_vmas`; the entries below `total_vmas` are live. Here
are the functions that place a mapping, remove one and handle a page fault, as far as the
table goes. The array is a function from indices, because the code reads `vmas[-1]` when the
table is empty and may read and write `vmas[32]`: the first lies over `ofile`, `cwd` and `name`
of the same process, the second over the first fields of the next `struct proc`. What the
table does not hold is an argument or part of the result: the value that `filewrite` returns,
whether `walkpgdir` finds a page table, and which pages are freed or mapped.
-/

namespace Cs537.P5

open Cs537.Lib

/-- The fields of `struct vm_area_struct` (`proc.h:37-47`) that `copy_mmap_struct` copies. A
pointer is its address. -/
structure Area where
  addr : Int
  len : Int
  prot : UInt32
  flags : UInt32
  file : UInt32
  offset : Int
  deriving DecidableEq, Repr

/-- `struct vm_area_struct` (`proc.h:37-47`). -/
structure Vma extends Area where
  inUse : Int
  storedSize : Int
  refCount : Int
  deriving DecidableEq, Repr

/-- The fields `vmas` and `total_vmas` of `struct proc` (`proc.h:65-66`). -/
structure Table where
  vmas : Int → Vma
  totalVmas : Int

/-- `PGSIZE` (`mmu.h:85`). -/
def pgsize : Int := 4096

/-- `MMAPBASE` (`memlayout.h:8`), an `int` constant. -/
def mmapBase : Int := 0x60000000

/-- `KERNBASE` (`memlayout.h:9`), an `unsigned int` constant. -/
def kernBase : Int := 0x80000000

/-- `PTE_U` (`mmu.h:96`). -/
def pteU : UInt32 := 4

/-- `PROT_WRITE` (`mmap.h:11`). -/
def protWrite : UInt32 := 2

/-- `MAP_PRIVATE` (`mmap.h:2`). -/
def mapPrivate : UInt32 := 1

/-- `MAP_SHARED` (`mmap.h:3`). -/
def mapShared : UInt32 := 2

/-- `MAP_ANONYMOUS` (`mmap.h:4`). -/
def mapAnonymous : UInt32 := 4

/-- `MAP_FIXED` (`mmap.h:6`). -/
def mapFixed : UInt32 := 8

/-- `MAP_GROWSUP` (`mmap.h:7`). -/
def mapGrowsup : UInt32 := 0x10

/-- `x & flag` as a condition. -/
def has (x flag : UInt32) : Bool := x &&& flag ≠ 0

/-- `PGROUNDUP` of an `int` (`mmu.h:90`). -/
def pgroundup (sz : Int) : Int := i32 (alignUp pgsize sz)

/-- `zero_mmap_region_struct` (`sys_mmap.c:15-24`). -/
def zeroMmapRegionStruct (va : Vma) : Vma :=
  { va with addr := 0, len := 0, prot := 0, flags := 0, file := 0, offset := 0, storedSize := 0 }

/-- `copy_mmap_struct` (`sys_mmap.c:35-42`). -/
def copyMmapStruct (mr1 mr2 : Vma) : Vma := { mr1 with toArea := mr2.toArea }

namespace Table

/-- `vmas[i] = v`. -/
def set (t : Table) (i : Int) (v : Vma) : Table := { t with vmas := Function.update t.vmas i v }

/-- `PGROUNDUP(vmas[i].addr + vmas[i].len)` as an `int`. -/
def endOf (t : Table) (i : Int) : Int := pgroundup (i32 ((t.vmas i).addr + (t.vmas i).len))

/-! ## Placing a mapping -/

/-- `setup_mmap_arr` (`sys_mmap.c:147-160`): the result and the table. The entries above `i` have
been moved up already when the address is found to be too high. -/
def setupMmapArr (t : Table) (size i mmapaddr : Int) : Int × Table :=
  let vmas := shiftUp copyMmapStruct t.vmas (t.totalVmas - (i + 1)).toNat t.totalVmas
  let t := { t with vmas := vmas }
  if kernBase ≤ u32 (pgroundup (i32 (mmapaddr + size))) then (-1, t)
  else (i + 1, t.set (i + 1) { t.vmas (i + 1) with addr := mmapaddr, len := size })

/-- The loop of `check_mmap_possible` (`sys_mmap.c:168-178`), `n` rounds left. -/
def checkGaps (t : Table) (mmapAddr size : Int) : Nat → Int → Int × Table
  | 0, _ => (-1, t)
  | n + 1, i =>
    if mmapAddr ≤ (t.vmas i).addr then (-1, t)
    else if t.endOf i < mmapAddr ∧ i32 (mmapAddr + size) < pgroundup (t.vmas (i + 1)).addr then
      t.setupMmapArr size i mmapAddr
    else checkGaps t mmapAddr size n (i + 1)

/-- `check_mmap_possible` (`sys_mmap.c:162-180`). -/
def checkMmapPossible (t : Table) (addr size : Int) : Int × Table :=
  let mmapAddr := pgroundup addr
  if t.endOf (t.totalVmas - 1) < mmapAddr then
    t.setupMmapArr size (t.totalVmas - 1) mmapAddr
  else t.checkGaps mmapAddr size (t.totalVmas - 1).toNat 0

/-- The test of `find_mmap_addr` for a gap behind entry `i` (`sys_mmap.c:201-203`). All of it is
`unsigned`. -/
def wide (t : Table) (size i : Int) : Prop :=
  u32 size < u32 (pgroundup (t.vmas (i + 1)).addr - t.endOf i)

instance (t : Table) (size i : Int) : Decidable (t.wide size i) :=
  inferInstanceAs (Decidable (_ < _))

/-- The loop of `find_mmap_addr` (`sys_mmap.c:200-207`), `n` rounds left. -/
def findGap (t : Table) (size : Int) : Nat → Int → Int
  | 0, i => i
  | n + 1, i =>
    if (t.vmas (i + 1)).addr ≠ 0 then
      if t.wide size i then i
      else findGap t size n (i + 1)
    else i

/-- `find_mmap_addr` (`sys_mmap.c:182-214`). -/
def findMmapAddr (t : Table) (size : Int) : Int × Table :=
  if t.totalVmas = 0 then
    if kernBase ≤ u32 (pgroundup (i32 (mmapBase + size))) then (-1, t)
    else (0, t.set 0 { t.vmas 0 with addr := pgroundup mmapBase, len := size })
  else if size < i32 ((t.vmas 0).addr - mmapBase) then
    t.setupMmapArr size (-1) mmapBase
  else
    let i := t.findGap size t.totalVmas.toNat 0
    let mmapaddr := u32 (t.endOf i)
    if kernBase < u32 (mmapaddr + size) then (-1, t)
    else t.setupMmapArr size i (i32 mmapaddr)

/-- The choice of the entry in `ummap` (`sys_mmap.c:228-262`). A table that `check_mmap_possible`
changed before it failed is kept. -/
def chooseEntry (t : Table) (addr length : Int) (flags : UInt32) : Int × Table :=
  let rndAddr := pgroundup (i32 (pgroundup addr + length))
  if has flags mapFixed then
    if addr = 0 ∨ addr < mmapBase ∨ kernBase < u32 rndAddr then (-1, t)
    else if kernBase < u32 rndAddr ∨ rndAddr % pgsize ≠ 0 then (-1, t)
    else t.checkMmapPossible addr length
  else if kernBase < u32 rndAddr then (-1, t)
  else
    let checked := t.checkMmapPossible addr length
    if checked.1 ≠ -1 then checked else checked.2.findMmapAddr length

/-- The end of `ummap` (`sys_mmap.c:264-270`): the other fields of the entry. -/
def fillEntry (t : Table) (i : Int) (prot flags : UInt32) (offset : Int) (file : UInt32) :
    Int × Table :=
  let t := t.set i { t.vmas i with
    file := file
    flags := flags
    prot := pteU ||| prot
    offset := offset }
  ((t.vmas i).addr, { t with totalVmas := t.totalVmas + 1 })

/-- `ummap` (`sys_mmap.c:216-271`): the address or -1, and the table. -/
def ummap (t : Table) (addr length : Int) (prot flags : UInt32) (offset : Int) (file : UInt32) :
    Int × Table :=
  if 32 ≤ t.totalVmas then (-1, t)
  else if ¬ has flags mapPrivate ∧ ¬ has flags mapShared then (-1, t)
  else
    let placed := t.chooseEntry addr length flags
    if placed.1 = -1 then (-1, placed.2)
    else placed.2.fillEntry placed.1 prot flags offset file

/-! ## Removing a mapping -/

/-- The search of `umunmap` (`sys_mmap.c:283-288`), which goes through all 32 entries. -/
def findVma (t : Table) (mainaddr : Int) : Option Int :=
  findFrom (fun i => u32 (t.vmas i).addr = mainaddr) 32 0

/-- The addresses whose pages `umunmap` frees if they are present (`sys_mmap.c:306-318`). -/
def freed (addr mainMapSize : Int) : List Int :=
  (List.range ((mainMapSize + 4095) / 4096).toNat).map fun (k : Nat) => u32 (addr + pgsize * k)

/-- `umunmap` (`sys_mmap.c:273-332`): the result, the table and the addresses whose pages are
freed. `filewrite` is what the call of `filewrite` returns, if it is made. -/
def umunmap (t : Table) (addr length filewrite : Int) : Int × Table × List Int :=
  let mainaddr := u32 (pgroundup addr)
  let unmappingSize := pgroundup length
  match t.findVma mainaddr with
  | none => (-1, t, [])
  | some i =>
    let v := t.vmas i
    let totalSize := v.len
    if totalSize = 0 then (-1, t, [])
    else if has v.flags mapShared ∧ ¬ has v.flags mapAnonymous ∧ has v.prot protWrite ∧
        filewrite < 0 then (-1, t, [])
    else
      let pages := freed addr (if unmappingSize > totalSize then totalSize else unmappingSize)
      if v.len ≤ unmappingSize then
        let t := t.set i (zeroMmapRegionStruct v)
        -- the last entry that moves keeps its old slot
        let vmas := shiftDown copyMmapStruct (fun x => x.addr ≠ 0) t.vmas (32 - i).toNat i
        (0, { vmas := vmas, totalVmas := t.totalVmas - 1 }, pages)
      else
        (0, t.set i { v with addr := i32 (v.addr + unmappingSize),
                             len := i32 (v.len - unmappingSize) }, pages)

/-! ## Page faults -/

/-- What `pgft_handler` does: it kills the process, or it calls `do_map` with a mapping. -/
inductive Fault where
  | killed
  | doMap (vma : Vma)
  deriving DecidableEq, Repr

/-- The first loop of `pgft_handler` (`trap.c:114-127`): the mapping that covers an address. -/
def covering (t : Table) (faultAddr : Int) : Option Int :=
  findFrom (fun i => u32 (t.vmas i).addr ≤ faultAddr ∧
    faultAddr ≤ u32 ((t.vmas i).addr + (t.vmas i).len)) t.totalVmas.toNat 0

/-- The condition under which the second loop of `pgft_handler` (`trap.c:128-144`) makes a mapping
grow. Its `break` stands behind the first round, so that it is about entry 0 only. -/
def growable (t : Table) (faultAddr : Int) : Prop :=
  0 < t.totalVmas ∧ has (t.vmas 0).flags mapGrowsup ∧
    (t.totalVmas - 1 = 0 ∨
      u32 (u32 (alignUp pgsize faultAddr) + pgsize) < u32 (t.vmas 1).addr)

instance (t : Table) (faultAddr : Int) : Decidable (t.growable faultAddr) :=
  inferInstanceAs (Decidable (_ ∧ _ ∧ (_ ∨ _)))

/-- `vmas[0].len += PGSIZE`. -/
def grown (t : Table) : Table := t.set 0 { t.vmas 0 with len := i32 ((t.vmas 0).len + pgsize) }

/-- `pgft_handler` (`trap.c:102-147`). `present` says whether `walkpgdir` finds a page table for
the address. -/
def pgftHandler (t : Table) (faultAddr : Int) (present : Bool) : Fault × Table :=
  if kernBase ≤ faultAddr ∨ faultAddr < mmapBase then (.killed, t)
  else
    match t.covering faultAddr with
    | some i =>
      let v := t.vmas i
      if present ∧ ¬ has v.flags mapGrowsup ∧ ¬ has v.flags mapShared then (.killed, t)
      else (.doMap v, t)
    | none =>
      if t.growable faultAddr then (.doMap (t.grown.vmas 0), t.grown)
      else (.killed, t)

/-! ## Calls -/

/-- The first fields of the next `struct proc` as seen through `vmas[32]`. The memory of a
process has frames, so `sz` is below `PHYSTOP` and thus below `MMAPBASE`; `pgdir` is null or a
kernel address, which is negative as an `int`. -/
structure Neighbour where
  sz : Int
  pgdir : Int
  kstack : UInt32
  state : UInt32
  pid : UInt32
  parent : Int
  tf : Int
  context : Int
  sz_nonneg : 0 ≤ sz
  sz_lt : sz < mmapBase
  pgdir_le : pgdir ≤ 0

/-- The next `struct proc` as an entry; `total_vmas` lies over `in_use`. -/
def Neighbour.vma (n : Neighbour) (totalVmas : Int) : Vma where
  addr := n.sz
  len := n.pgdir
  prot := n.kstack
  flags := n.state
  file := n.pid
  offset := n.parent
  inUse := totalVmas
  storedSize := n.tf
  refCount := n.context

/-- What happens to the table: the three calls, and what other code does to the memory before
and behind it. -/
inductive Call where
  | ummap (addr length : Int) (prot flags : UInt32) (offset : Int) (file : UInt32)
  | umunmap (addr length filewrite : Int)
  | pgft (faultAddr : Int) (present : Bool)
  | ofile (below : Vma)
  | neighbour (above : Neighbour)

/-- The table after a call; arguments are `int`s and a faulting address is `unsigned`. -/
def next (t : Table) : Call → Table
  | .ummap addr length prot flags offset file =>
    (t.ummap (i32 addr) (i32 length) prot flags offset file).2
  | .umunmap addr length filewrite => (t.umunmap (i32 addr) (i32 length) filewrite).2.1
  | .pgft faultAddr present => (t.pgftHandler (u32 faultAddr) present).2
  | .ofile below => t.set (-1) below
  | .neighbour above => t.set 32 (above.vma t.totalVmas)

end Table

end Cs537.P5
