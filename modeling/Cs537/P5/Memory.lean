import Cs537.Lib.Splice
import Cs537.P5.Paging

/-!
# The memory of a process

What `Vma` and `Paging` leave out: the permissions of a page, the bytes in the frames, the frames
that the page tables take, and the files behind the mappings. A process that runs in the kernel
reads and writes user memory through its own page directory. Where it touches a page that is not
present, or writes to one that is read-only, there is a page fault in the kernel: `filewrite` goes
on if the handler has mapped the page, while a fault inside `fileread`, which the handler itself
calls, ends the model. It may be left for ever, map a page that nobody asked for, or panic.
-/

namespace Cs537.P5

open Cs537.Lib

/-- Why the kernel does not come back. -/
inductive Halt where
  | panic
  | fault
  | deadlock
  deriving DecidableEq

/-- `PTE_W` (`mmu.h:95`). -/
def pteW : UInt32 := 2

/-! ## Page tables -/

/-- A page table entry with `PTE_P`: its frame and its other bits. -/
structure Pte where
  frame : Nat
  perm : UInt32
  deriving DecidableEq

/-- A page directory below `KERNBASE`: the frames of the page tables, by directory index, and their
entries, by page number. A page whose table is missing has no entry. -/
structure PageDir where
  table : Int → Option Nat
  pte : Int → Option Pte
  backed : ∀ p, table (p / 1024) = none → pte p = none

namespace PageDir

/-- The directory without tables. -/
theorem none_backed (_ : Int) (_ : (none : Option Nat) = none) : (none : Option Pte) = none := rfl

/-- A new page table, zeroed. -/
def addTable (d : PageDir) (i : Int) (f : Nat) : PageDir where
  table := Function.update d.table i (some f)
  pte := d.pte
  backed := by
    intro p hp
    by_cases hi : p / 1024 = i
    · rw [hi, Function.update_self] at hp
      cases hp
    · rw [Function.update_of_ne hi] at hp
      exact d.backed p hp

/-- An entry of a page table that is there. -/
def setPte (d : PageDir) (p : Int) (e : Pte) : PageDir where
  table := d.table
  pte := if d.table (p / 1024) = none then d.pte else Function.update d.pte p (some e)
  backed := by
    intro q hq
    by_cases hp : d.table (p / 1024) = none
    · rw [if_pos hp]
      exact d.backed q hq
    · have hqp : q ≠ p := by
        rintro rfl
        exact hp hq
      rw [if_neg hp, Function.update_of_ne hqp]
      exact d.backed q hq

/-- `*pte = 0`. -/
def clearPte (d : PageDir) (p : Int) : PageDir where
  table := d.table
  pte := Function.update d.pte p none
  backed := by
    intro q hq
    by_cases hqp : q = p
    · rw [hqp, Function.update_self]
    · rw [Function.update_of_ne hqp]
      exact d.backed q hq

/-- `walkpgdir` with `alloc` set (`vm.c:35-55`), `none` for 0. -/
def walkpgdir (d : PageDir) (free : List Nat) (va : Int) : Option (PageDir × List Nat) :=
  if (d.table (pdx va)).isSome then some (d, free)
  else
    match free with
    | [] => none
    | f :: free => some (d.addTable (pdx va) f, free)

/-- The loop of `mappages` (`vm.c:68-80`), `n` pages left: whether it succeeds, the directory and
the free list. -/
def mapLoop : Nat → PageDir → List Nat → Int → Nat → UInt32 →
    Except Halt (Bool × PageDir × List Nat)
  | 0, d, free, _, _, _ => .ok (true, d, free)
  | n + 1, d, free, a, f, perm =>
    match d.walkpgdir free a with
    | none => .ok (false, d, free)
    | some (d, free) =>
      if (d.pte (pageOf a)).isSome then .error .panic
      else mapLoop n (d.setPte (pageOf a) ⟨f, perm⟩) free (u32 (a + pgsize)) (f + 1) perm

/-- `mappages` (`vm.c:60-82`). -/
def mappages (d : PageDir) (free : List Nat) (va size : Int) (f : Nat) (perm : UInt32) :
    Except Halt (Bool × PageDir × List Nat) :=
  let first := pageOf (u32 va)
  let last := pageOf (u32 (va + size - 1))
  mapLoop (((last - first) % 2 ^ 20).toNat + 1) d free (first * pgsize) f perm

/-! ### Mapping one page -/

section

variable {d : PageDir} {va size : Int}

/-- One page from an aligned address on. -/
theorem mappages_eq (free : List Nat) (f : Nat) (perm : UInt32) (haligned : pgsize ∣ va)
    (h0 : 0 ≤ va) (hhi : va + pgsize ≤ 2 ^ 32) (hpos : 0 < size) (hle : size ≤ pgsize) :
    d.mappages free va size f perm = mapLoop 1 d free va f perm := by
  obtain ⟨hlast, hfirst⟩ := Pgdir.last_eq_first haligned h0 hhi hpos hle
  unfold mappages
  simp only [hlast, hfirst]
  rw [Int.sub_self]
  rfl

/-- What comes of mapping a page that is not present. -/
inductive OnePage (d : PageDir) (free : List Nat) (va : Int) (f : Nat) (perm : UInt32)
    (r : Except Halt (Bool × PageDir × List Nat)) : Prop
  | noTable (missing : d.table (pdx va) = none) (empty : free = []) (eq : r = .ok (false, d, []))
  | mapped (d' : PageDir) (there : d.table (pdx va) ≠ none) (table : d'.table = d.table)
      (pte : d'.pte = Function.update d.pte (pageOf va) (some ⟨f, perm⟩))
      (eq : r = .ok (true, d', free))
  | newTable (d' : PageDir) (g : Nat) (rest : List Nat) (missing : d.table (pdx va) = none)
      (taken : free = g :: rest) (table : d'.table = Function.update d.table (pdx va) (some g))
      (pte : d'.pte = Function.update d.pte (pageOf va) (some ⟨f, perm⟩))
      (eq : r = .ok (true, d', rest))

theorem mapLoop_one (free : List Nat) (f : Nat) (perm : UInt32)
    (habsent : d.pte (pageOf va) = none) :
    OnePage d free va f perm (mapLoop 1 d free va f perm) := by
  simp only [mapLoop, walkpgdir]
  by_cases htable : d.table (pdx va) = none
  · rw [htable, Option.isSome_none, if_neg Bool.false_ne_true]
    cases free with
    | nil => exact .noTable htable rfl rfl
    | cons g rest =>
      have hthere : (d.addTable (pdx va) g).table (pageOf va / 1024) ≠ none := by
        rw [Pgdir.pageOf_div]
        simp only [addTable, Function.update_self]
        exact Option.some_ne_none g
      have habsent' : (d.addTable (pdx va) g).pte (pageOf va) = none := habsent
      refine .newTable ((d.addTable (pdx va) g).setPte (pageOf va) ⟨f, perm⟩) g rest htable rfl rfl
        (if_neg hthere) ?_
      simp only [habsent', Option.isSome_none, Bool.false_eq_true, if_false]
  · have hthere : d.table (pageOf va / 1024) ≠ none := by
      rw [Pgdir.pageOf_div]
      exact htable
    rw [if_pos (Option.isSome_iff_ne_none.mpr htable)]
    refine .mapped (d.setPte (pageOf va) ⟨f, perm⟩) htable rfl (if_neg hthere) ?_
    simp only [habsent, Option.isSome_none, Bool.false_eq_true, if_false]

end

end PageDir

/-- The bytes in the frames. -/
abbrev FrameBytes := Nat → Int → UInt8

/-- `memset(mem, c, PGSIZE)`. -/
def FrameBytes.fill (b : FrameBytes) (f : Nat) (c : UInt8) : FrameBytes :=
  Function.update b f fun _ => c

/-- One byte. -/
def FrameBytes.put (b : FrameBytes) (f : Nat) (i : Int) (c : UInt8) : FrameBytes :=
  Function.update b f (Function.update (b f) i c)

/-! ## Files -/

/-- `struct file` (`file.h`) of an inode. -/
structure File where
  readable : Bool
  writable : Bool
  ip : Nat
  off : Int
  deriving DecidableEq

/-- `MAXFILE*BSIZE` (`fs.h:25-26`). -/
def maxFileSize : Int := 71680

/-- `readi` of a file (`fs.c:453-478`): the bytes it delivers, `none` for -1. -/
def readi (data : List UInt8) (off n : Int) : Option (List UInt8) :=
  if (data.length : Int) < off ∨ u32 (off + n) < off then none
  else
    let n := if (data.length : Int) < u32 (off + n) then data.length - off else n
    some ((data.drop off.toNat).take n.toNat)

/-! ## The machine -/

/-- A process and what it uses: the free list, the bytes of the frames, the open files and the data
of the inodes. -/
structure Machine where
  free : List Nat
  bytes : FrameBytes
  dir : PageDir
  maps : Table
  killed : Bool
  file : UInt32 → File
  data : Nat → List UInt8

namespace Machine

/-- The offset of an address in its page. -/
def pageOffset (va : Int) : Int := va % pgsize

/-- Writing to user memory in the kernel. -/
def store (m : Machine) (va : Int) : List UInt8 → Except Halt Machine
  | [] => .ok m
  | c :: cs =>
    match m.dir.pte (pageOf va) with
    | none => .error .fault
    | some e =>
      if has e.perm pteW then
        store { m with bytes := m.bytes.put e.frame (pageOffset va) c } (va + 1) cs
      else .error .fault

/-- `f->off = off`. -/
def seek (m : Machine) (f : UInt32) (off : Int) : Machine :=
  { m with file := Function.update m.file f { m.file f with off := u32 off } }

/-- `fileread` (`file.c:95-113`) of a file with an inode, in a process that holds the lock of inode
`locked`. `Storage` has pipes and devices too. -/
def fileread (m : Machine) (locked : Option Nat) (f : UInt32) (addr n : Int) :
    Except Halt (Int × Machine) :=
  if ¬ (m.file f).readable then .ok (-1, m)
  else if locked = some (m.file f).ip then .error .deadlock
  else
    match readi (m.data (m.file f).ip) (m.file f).off (u32 n) with
    | none => .ok (-1, m)
    | some bs =>
      match m.store addr bs with
      | .error e => .error e
      | .ok m => .ok (bs.length, m.seek f ((m.file f).off + bs.length))

/-- The permissions that `do_map` gives a page (`trap.c:75-87`). -/
def mapPerm (vma : Vma) : UInt32 := if has vma.prot protWrite then pteW ||| pteU else pteU

/-- The number of bytes that `do_map` asks for (`trap.c:89-94`). `vma` is a copy, so what it adds to
`stored_size` is lost. -/
def readSize (vma : Vma) : Int :=
  let storedSize := i32 (vma.storedSize + pgsize)
  if i32 (vma.len - storedSize) < pgsize then i32 (vma.len - storedSize) else pgsize

/-- The end of `do_map` (`trap.c:88-99`): the new page is filled from the file. -/
def fillPage (m : Machine) (locked : Option Nat) (faultAddr : Int) (vma : Vma) :
    Except Halt Machine :=
  if has vma.flags mapAnonymous then .ok m
  else
    match m.fileread locked vma.file (pageOf faultAddr * pgsize) (readSize vma) with
    | .error e => .error e
    | .ok (_, m) => .ok m

/-- `do_map` (`trap.c:64-100`). -/
def doMap (m : Machine) (locked : Option Nat) (faultAddr : Int) (vma : Vma) :
    Except Halt Machine :=
  match m.free with
  | [] => .ok { m with killed := true }
  | mem :: free =>
    let bytes := m.bytes.fill mem 0
    match m.dir.mappages free (pageOf faultAddr * pgsize) pgsize mem (mapPerm vma) with
    | .error e => .error e
    | .ok (false, dir, free) =>
      .ok { m with free := free, bytes := bytes, dir := dir, killed := true }
    | .ok (true, dir, free) =>
      { m with free := free, bytes := bytes, dir := dir }.fillPage locked faultAddr vma

/-- `pgft_handler` (`trap.c:102-147`). -/
def pgftHandler (m : Machine) (locked : Option Nat) (faultAddr : Int) : Except Halt Machine :=
  match m.maps.pgftHandler faultAddr (m.dir.table (pdx faultAddr)).isSome with
  | (.killed, maps) => .ok { m with maps := maps, killed := true }
  | (.doMap vma, maps) => { m with maps := maps }.doMap locked faultAddr vma

/-! ## Unmapping -/

/-- Reading a byte of user memory in the kernel. If the handler leaves the page as it is, the fault
comes back for ever. -/
def load (m : Machine) (locked : Option Nat) (va : Int) : Except Halt (UInt8 × Machine) :=
  match m.dir.pte (pageOf va) with
  | some e => .ok (m.bytes e.frame (pageOffset va), m)
  | none =>
    match m.pgftHandler locked va with
    | .error e => .error e
    | .ok m =>
      match m.dir.pte (pageOf va) with
      | some e => .ok (m.bytes e.frame (pageOffset va), m)
      | none => .error .fault

/-- Reading `n` bytes. -/
def loads (m : Machine) (locked : Option Nat) : Int → Nat → Except Halt (List UInt8 × Machine)
  | _, 0 => .ok ([], m)
  | va, n + 1 =>
    match m.load locked (u32 va) with
    | .error e => .error e
    | .ok (c, m) =>
      match m.loads locked (va + 1) n with
      | .error e => .error e
      | .ok (cs, m) => .ok (c :: cs, m)

/-- A byte was read, and then the others. -/
theorem loads_succ_ok {m m' : Machine} {locked : Option Nat} {va : Int} {n : Nat} {bs : List UInt8}
    (hok : m.loads locked va (n + 1) = .ok (bs, m')) :
    ∃ c m₁ cs, m.load locked (u32 va) = .ok (c, m₁) ∧
      m₁.loads locked (va + 1) n = .ok (cs, m') ∧ bs = c :: cs := by
  rw [loads] at hok
  cases hload : m.load locked (u32 va) with
  | error e =>
    rw [hload] at hok
    cases hok
  | ok r =>
    rw [hload] at hok
    simp only at hok
    cases hloads : r.2.loads locked (va + 1) n with
    | error e =>
      rw [hloads] at hok
      cases hok
    | ok r' =>
      rw [hloads] at hok
      cases hok
      exact ⟨r.1, r.2, r'.1, rfl, hloads, rfl⟩

/-- `writei` of a file (`fs.c:481-511`), which holds the lock of the inode: whether it writes. -/
def writei (m : Machine) (ip : Nat) (src off : Int) (n : Nat) : Except Halt (Bool × Machine) :=
  if ((m.data ip).length : Int) < off ∨ u32 (off + n) < off then .ok (false, m)
  else if maxFileSize < u32 (off + n) then .ok (false, m)
  else
    match m.loads (some ip) src n with
    | .error e => .error e
    | .ok (bs, m) =>
      .ok (true, { m with data := Function.update m.data ip (splice (m.data ip) off.toNat bs) })

/-- The most that `filewrite` writes at a time (`file.c:133`). -/
def maxChunk : Nat := 1536

/-- The loop of `filewrite` (`file.c:135-152`), `n` bytes left, for `fuel` rounds: whether all of
them are written. -/
def writeLoop (f : UInt32) : Nat → Machine → Int → Nat → Except Halt (Bool × Machine)
  | 0, m, _, n => .ok (n = 0, m)
  | fuel + 1, m, addr, n =>
    if n = 0 then .ok (true, m)
    else
      let n1 := min n maxChunk
      match m.writei (m.file f).ip addr (m.file f).off n1 with
      | .error e => .error e
      | .ok (false, m) => .ok (false, m)
      | .ok (true, m) => writeLoop f fuel (m.seek f ((m.file f).off + n1)) (addr + n1) (n - n1)

/-- `filewrite` (`file.c:117-156`) of a file with an inode, on a disk with room for it. `Storage` has
pipes and full disks too. -/
def filewrite (m : Machine) (f : UInt32) (addr n : Int) : Except Halt (Int × Machine) :=
  if ¬ (m.file f).writable then .ok (-1, m)
  else if n < 0 then .ok (-1, m)
  else
    match writeLoop f n.toNat m addr n.toNat with
    | .error e => .error e
    | .ok (done, m) => .ok (if done then n else -1, m)

/-- The entry that `umunmap` writes back, if any (`sys_mmap.c:283-298`). -/
def dirtyEntry (t : Table) (addr : Int) : Option Vma :=
  match t.findVma (u32 (pgroundup addr)) with
  | none => none
  | some i =>
    let v := t.vmas i
    if v.len ≠ 0 ∧ has v.flags mapShared ∧ ¬ has v.flags mapAnonymous ∧ has v.prot protWrite then
      some v
    else none

/-- The write-back of `umunmap` (`sys_mmap.c:298-303`): what `filewrite` returns. -/
def writeBack (m : Machine) (addr : Int) : Except Halt (Int × Machine) :=
  match dirtyEntry m.maps addr with
  | none => .ok (0, m)
  | some v => (m.seek v.file v.offset).filewrite v.file v.addr v.len

/-- `kfree` of the page at an address, if it is there (`sys_mmap.c:309-317`). -/
def freePage (m : Machine) (va : Int) : Machine :=
  match m.dir.pte (pageOf va) with
  | none => m
  | some e =>
    { m with
      free := e.frame :: m.free
      bytes := m.bytes.fill e.frame 1
      dir := m.dir.clearPte (pageOf va) }

/-- `umunmap` (`sys_mmap.c:273-332`). -/
def umunmap (m : Machine) (addr length : Int) : Except Halt (Int × Machine) :=
  match m.writeBack addr with
  | .error e => .error e
  | .ok (written, m) =>
    let r := m.maps.umunmap addr length written
    .ok (r.1, r.2.2.foldl freePage { m with maps := r.2.1 })

/-! ## Writing to user memory -/

variable {m m' : Machine} {va : Int} {vma : Vma}

/-- The page of an address is present and writable. -/
def CanWrite (d : PageDir) (va : Int) : Prop :=
  ∃ e, d.pte (pageOf va) = some e ∧ has e.perm pteW = true

/-- The kernel writes if all the pages are writable. -/
theorem store_cases (m : Machine) (va : Int) (bs : List UInt8) :
    (∀ k < bs.length, CanWrite m.dir (va + k)) ∧
        (∃ bytes, m.store va bs = .ok { m with bytes := bytes }) ∨
      (¬ ∀ k < bs.length, CanWrite m.dir (va + k)) ∧ m.store va bs = .error .fault := by
  induction bs generalizing m va with
  | nil => exact .inl ⟨fun k hk => absurd hk (Nat.not_lt_zero k), m.bytes, rfl⟩
  | cons c cs ih =>
    by_cases hfirst : CanWrite m.dir va
    · obtain ⟨e, hpte, hwrite⟩ := hfirst
      have hstore : m.store va (c :: cs) =
          { m with bytes := m.bytes.put e.frame (pageOffset va) c }.store (va + 1) cs := by
        simp only [store, hpte, hwrite, if_true]
      have hsplit : (∀ k < (c :: cs).length, CanWrite m.dir (va + k)) ↔
          ∀ k < cs.length, CanWrite m.dir (va + 1 + k) := by
        constructor
        · intro hall k hk
          have h := hall (k + 1) (Nat.succ_lt_succ hk)
          rwa [show va + ((k + 1 : Nat) : Int) = va + 1 + k by omega] at h
        · intro hall k hk
          cases k with
          | zero => exact ⟨e, by rw [show va + ((0 : Nat) : Int) = va by omega]; exact hpte, hwrite⟩
          | succ k =>
            rw [show va + ((k + 1 : Nat) : Int) = va + 1 + k by omega]
            exact hall k (Nat.lt_of_succ_lt_succ hk)
      rw [hstore, hsplit]
      exact ih { m with bytes := m.bytes.put e.frame (pageOffset va) c } (va + 1)
    · right
      refine ⟨?_, ?_⟩
      · intro hall
        have h := hall 0 (Nat.succ_pos _)
        rw [show va + ((0 : Nat) : Int) = va by omega] at h
        exact hfirst h
      · simp only [store]
        cases hpte : m.dir.pte (pageOf va) with
        | none => rfl
        | some e =>
          have hread : ¬ has e.perm pteW = true := fun hwrite => hfirst ⟨e, hpte, hwrite⟩
          simp only [hread]
          rfl

/-- What `do_map` writes to the new page, from its start on. -/
def fillBytes (m : Machine) (vma : Vma) : List UInt8 :=
  if has vma.flags mapAnonymous ∨ ¬ (m.file vma.file).readable then []
  else
    (readi (m.data (m.file vma.file).ip) (m.file vma.file).off (u32 (readSize vma))).getD []

/-- There are frames for the page and, if it is missing, for its page table. -/
def Enough (m : Machine) (va : Int) : Prop :=
  m.free ≠ [] ∧ (m.dir.table (pdx va) = none → 2 ≤ m.free.length)

/-- What is read into the new page goes to pages that can be written: the new one, if the mapping
is writable, and others that are there already. -/
def CanFill (m : Machine) (va : Int) (vma : Vma) : Prop :=
  ∀ k < (m.fillBytes vma).length,
    if pageOf (pageOf va * pgsize + k) = pageOf va then has vma.prot protWrite = true
    else CanWrite m.dir (pageOf va * pgsize + k)

/-- What comes of `do_map` for a page that is not present: the process is killed for want of
frames, or the page is mapped and then filled. -/
inductive DoMap (m : Machine) (locked : Option Nat) (va : Int) (vma : Vma)
    (r : Except Halt Machine) : Prop
  | killed (free : List Nat) (bytes : FrameBytes) (few : ¬ m.Enough va) (suffix : free <:+ m.free)
      (same : ∀ f, f ∉ m.free → bytes f = m.bytes f)
      (eq : r = .ok { m with free := free, bytes := bytes, killed := true })
  | mapped (mem : Nat) (rest free : List Nat) (dir : PageDir) (enough : m.Enough va)
      (taken : m.free = mem :: rest) (suffix : free <:+ rest)
      (pte : dir.pte = Function.update m.dir.pte (pageOf va) (some ⟨mem, mapPerm vma⟩))
      (eq : r = { m with free := free, bytes := m.bytes.fill mem 0, dir := dir }.fillPage
        locked va vma)

theorem doMap_cases (locked : Option Nat) (vma : Vma) (h0 : 0 ≤ va) (hhi : va < 2 ^ 32)
    (habsent : m.dir.pte (pageOf va) = none) : DoMap m locked va vma (m.doMap locked va vma) := by
  have hpage : pageOf (pageOf va * pgsize) = pageOf va := by
    unfold pageOf pgsize
    omega
  have hpdx : pdx (pageOf va * pgsize) = pdx va := Pgdir.pdx_of_pageOf hpage
  unfold doMap
  cases hfree : m.free with
  | nil =>
    exact .killed [] m.bytes (fun henough => henough.1 hfree) List.nil_suffix (fun _ _ => rfl) rfl
  | cons mem rest =>
    have hmap : m.dir.mappages rest (pageOf va * pgsize) pgsize mem (mapPerm vma) = _ :=
      PageDir.mappages_eq rest mem (mapPerm vma) (Int.dvd_mul_left _ _)
        (by unfold pageOf pgsize; omega) (by unfold pageOf pgsize; omega) (by decide)
        (Int.le_refl _)
    have hone := PageDir.mapLoop_one rest mem (mapPerm vma)
      (show m.dir.pte (pageOf (pageOf va * pgsize)) = none by rw [hpage]; exact habsent)
    simp only
    rw [hmap]
    cases hone with
    | noTable missing empty eq =>
      rw [hpdx] at missing
      rw [eq]
      refine .killed [] (m.bytes.fill mem 0) ?_ List.nil_suffix ?_ rfl
      · rintro ⟨-, htwo⟩
        have hlength := htwo missing
        rw [hfree, empty, List.length_singleton] at hlength
        omega
      · intro f hf
        refine Function.update_of_ne ?_ _ _
        rintro rfl
        rw [hfree] at hf
        exact hf List.mem_cons_self
    | mapped d' there table pte eq =>
      rw [hpdx] at there
      rw [hpage] at pte
      rw [eq]
      refine .mapped mem rest rest d' ⟨?_, fun hnone => absurd hnone there⟩ hfree (List.suffix_refl _) pte rfl
      rw [hfree]
      exact List.cons_ne_nil _ _
    | newTable d' g rest' missing taken table pte eq =>
      rw [hpage] at pte
      rw [eq]
      refine .mapped mem rest rest' d' ⟨?_, fun _ => ?_⟩ hfree ?_ pte rfl
      · rw [hfree]
        exact List.cons_ne_nil _ _
      · rw [hfree, taken, List.length_cons, List.length_cons]
        omega
      · rw [taken]
        exact List.suffix_cons _ _

theorem has_mapPerm (vma : Vma) : has (mapPerm vma) pteW = has vma.prot protWrite := by
  unfold mapPerm
  by_cases hwrite : has vma.prot protWrite = true
  · rw [if_pos hwrite, hwrite]
    decide
  · rw [if_neg hwrite, Bool.not_eq_true _ |>.mp hwrite]
    decide

/-- Filling the new page, for a process that holds no lock. -/
theorem fillPage_cases (m : Machine) (va : Int) (vma : Vma) :
    (∀ k < (m.fillBytes vma).length, CanWrite m.dir (pageOf va * pgsize + k)) ∧
        (∃ m', m.fillPage none va vma = .ok m' ∧ m'.killed = m.killed ∧ m'.dir = m.dir ∧
          m'.maps = m.maps) ∨
      (¬ ∀ k < (m.fillBytes vma).length, CanWrite m.dir (pageOf va * pgsize + k)) ∧
        m.fillPage none va vma = .error .fault := by
  have hnone (h : m.fillBytes vma = []) :
      ∀ k < (m.fillBytes vma).length, CanWrite m.dir (pageOf va * pgsize + k) := by
    intro k hk
    rw [h] at hk
    exact absurd hk (Nat.not_lt_zero k)
  unfold fillPage
  by_cases hanon : has vma.flags mapAnonymous = true
  · rw [if_pos hanon]
    exact .inl ⟨hnone (if_pos (.inl hanon)), m, rfl, rfl, rfl, rfl⟩
  · rw [if_neg hanon]
    by_cases hreadable : (m.file vma.file).readable = true
    · have hfill : m.fillBytes vma = (readi (m.data (m.file vma.file).ip) (m.file vma.file).off
          (u32 (readSize vma))).getD [] := if_neg (by tauto)
      unfold fileread
      rw [if_neg (not_not.mpr hreadable), if_neg (Option.some_ne_none _ ∘ Eq.symm)]
      cases hread : readi (m.data (m.file vma.file).ip) (m.file vma.file).off
          (u32 (readSize vma)) with
      | none =>
        rw [hread] at hfill
        exact .inl ⟨hnone hfill, m, rfl, rfl, rfl, rfl⟩
      | some bs =>
        rw [hread] at hfill
        rw [hfill]
        simp only [Option.getD_some]
        rcases m.store_cases (pageOf va * pgsize) bs with ⟨hall, bytes, hok⟩ | ⟨hnot, herror⟩
        · left
          rw [hok]
          exact ⟨hall, _, rfl, rfl, rfl, rfl⟩
        · right
          rw [herror]
          exact ⟨hnot, rfl⟩
    · unfold fileread
      rw [if_pos hreadable]
      exact .inl ⟨hnone (if_pos (.inr hreadable)), m, rfl, rfl, rfl, rfl⟩

/-! ## Freeing pages -/

/-- What freeing the pages at some addresses does. -/
structure Freed (m m' : Machine) (pages : List Int) : Prop where
  maps : m'.maps = m.maps
  killed : m'.killed = m.killed
  file : m'.file = m.file
  data : m'.data = m.data
  table : m'.dir.table = m.dir.table
  pte : ∀ p, m'.dir.pte p = if p ∈ pages.map pageOf then none else m.dir.pte p
  free : ∀ f, f ∈ m'.free ↔ f ∈ m.free ∨ ∃ p ∈ pages.map pageOf, ∃ e, m.dir.pte p = some e ∧
    e.frame = f
  bytes : ∀ f, (∀ p ∈ pages.map pageOf, ∀ e, m.dir.pte p = some e → e.frame ≠ f) →
    m'.bytes f = m.bytes f

theorem freePage_freed (m : Machine) (va : Int) : Freed m (m.freePage va) [va] := by
  have hmem (p : Int) : p ∈ [va].map pageOf ↔ p = pageOf va := by
    rw [List.map_singleton, List.mem_singleton]
  unfold freePage
  cases hpte : m.dir.pte (pageOf va) with
  | none =>
    refine ⟨rfl, rfl, rfl, rfl, rfl, ?_, ?_, fun _ _ => rfl⟩
    · intro p
      by_cases hp : p = pageOf va
      · rw [if_pos ((hmem p).mpr hp), hp]
        exact hpte
      · rw [if_neg (mt (hmem p).mp hp)]
    · intro f
      refine ⟨.inl, ?_⟩
      rintro (hf | ⟨p, hp, e, he, -⟩)
      · exact hf
      · rw [(hmem p).mp hp, hpte] at he
        cases he
  | some e =>
    refine ⟨rfl, rfl, rfl, rfl, rfl, ?_, ?_, ?_⟩
    · intro p
      simp only [PageDir.clearPte, Function.update_apply, hmem]
    · intro f
      rw [List.mem_cons]
      constructor
      · rintro (rfl | hf)
        · exact .inr ⟨pageOf va, (hmem _).mpr rfl, e, hpte, rfl⟩
        · exact .inl hf
      · rintro (hf | ⟨p, hp, e', he, rfl⟩)
        · exact .inr hf
        · rw [(hmem p).mp hp, hpte] at he
          cases he
          exact .inl rfl
    · intro f hf
      exact Function.update_of_ne (fun heq => hf _ ((hmem _).mpr rfl) e hpte heq.symm) _ _

theorem Freed.trans {m₁ : Machine} {ps qs : List Int} (h : Freed m m₁ ps) (h' : Freed m₁ m' qs) :
    Freed m m' (ps ++ qs) := by
  have hmem (p : Int) :
      p ∈ (ps ++ qs).map pageOf ↔ p ∈ ps.map pageOf ∨ p ∈ qs.map pageOf := by
    rw [List.map_append, List.mem_append]
  refine ⟨h'.maps.trans h.maps, h'.killed.trans h.killed, h'.file.trans h.file,
    h'.data.trans h.data, h'.table.trans h.table, ?_, ?_, ?_⟩
  · intro p
    rw [h'.pte, h.pte]
    simp only [hmem]
    by_cases hp : p ∈ ps.map pageOf
    · simp only [hp, if_true, true_or, ite_self]
    · simp only [hp, if_false, false_or]
  · intro f
    rw [h'.free, h.free]
    constructor
    · rintro ((hf | ⟨p, hp, e, he, hframe⟩) | ⟨p, hp, e, he, hframe⟩)
      · exact .inl hf
      · exact .inr ⟨p, (hmem p).mpr (.inl hp), e, he, hframe⟩
      · rw [h.pte, Option.ite_none_left_eq_some] at he
        exact .inr ⟨p, (hmem p).mpr (.inr hp), e, he.2, hframe⟩
    · rintro (hf | ⟨p, hp, e, he, hframe⟩)
      · exact .inl (.inl hf)
      · by_cases hfirst : p ∈ ps.map pageOf
        · exact .inl (.inr ⟨p, hfirst, e, he, hframe⟩)
        · refine .inr ⟨p, ((hmem p).mp hp).resolve_left hfirst, e, ?_, hframe⟩
          rw [h.pte, if_neg hfirst]
          exact he
  · intro f hf
    rw [h'.bytes f, h.bytes f]
    · exact fun p hp => hf p ((hmem p).mpr (.inl hp))
    · intro p hp e he
      rw [h.pte, Option.ite_none_left_eq_some] at he
      exact hf p ((hmem p).mpr (.inr hp)) e he.2

theorem freePages_freed (m : Machine) (pages : List Int) :
    Freed m (pages.foldl freePage m) pages := by
  induction pages generalizing m with
  | nil =>
    refine ⟨rfl, rfl, rfl, rfl, rfl, fun _ => rfl, ?_, fun _ _ => rfl⟩
    intro f
    refine ⟨.inl, ?_⟩
    rintro (hf | ⟨p, hp, -⟩)
    · exact hf
    · exact absurd hp List.not_mem_nil
  | cons va pages ih => exact (m.freePage_freed va).trans (ih (m.freePage va))

end Machine

end Cs537.P5
