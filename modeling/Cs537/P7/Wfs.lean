import Cs537.Lib.Bytes
import Cs537.Lib.Paths

/-!
# The log-structured file system of `mount.wfs.c`

The mapped disk is a byte memory and pointers into it are offsets from its start; a null
pointer is `none`. Where the C code would follow a null pointer, write past the mapping or
overflow a heap block, a function returns `none` in its outer `Option`. An `int` that holds
an inode number is kept as its 32-bit pattern, so `-1` is `0xffffffff`. The clock, the user
and the bytes of fresh `malloc` memory are arguments.
-/

namespace Cs537.P7

open Cs537.Lib

/-- `struct wfs_inode` (`wfs.h:24-36`). -/
structure Inode where
  inodeNumber : UInt32
  deleted : UInt32
  mode : UInt32
  uid : UInt32
  gid : UInt32
  flags : UInt32
  size : UInt32
  atime : UInt32
  mtime : UInt32
  ctime : UInt32
  links : UInt32
  deriving DecidableEq, Repr

/-- `sizeof(struct wfs_sb)`. -/
def sizeofSb : Nat := 8

/-- `sizeof(struct wfs_inode)`, which is also `sizeof(struct wfs_log_entry)`. -/
def sizeofInode : Nat := 44

/-- `sizeof(struct wfs_dentry)`: a name of `MAX_FILE_NAME_LEN` bytes and an `unsigned long`. -/
def sizeofDentry : Nat := 40

/-- `MAX_FILE_NAME_LEN` (`wfs.h:7`). -/
def maxFileNameLen : Nat := 32

/-- `WFS_MAGIC` (`wfs.h:8`). -/
def wfsMagic : UInt32 := 0xdeadbeef

/-- `__S_IFDIR`. -/
def sIfdir : UInt32 := 0o040000

/-- `__S_IFREG`. -/
def sIfreg : UInt32 := 0o100000

/-- The bits of a mode that hold the kind of the file. -/
def sIfmt : UInt32 := 0o170000

/-- `ENOENT`. -/
def enoent : Int := 2

/-- The `int` -1. -/
def minusOne : UInt32 := 0xffffffff

/-- The bytes of an inode in memory. -/
def Inode.bytes (i : Inode) : Bytes :=
  [i.inodeNumber, i.deleted, i.mode, i.uid, i.gid, i.flags, i.size, i.atime, i.mtime, i.ctime,
    i.links].flatMap le32

/-- The inode at an offset. -/
def inodeAt (m : Mem) (o : Nat) : Inode where
  inodeNumber := m.u32 o
  deleted := m.u32 (o + 4)
  mode := m.u32 (o + 8)
  uid := m.u32 (o + 12)
  gid := m.u32 (o + 16)
  flags := m.u32 (o + 20)
  size := m.u32 (o + 24)
  atime := m.u32 (o + 28)
  mtime := m.u32 (o + 32)
  ctime := m.u32 (o + 36)
  links := m.u32 (o + 40)

/-- The disk as mapped by `main`, with `wp->len`, `wp->head` and `cur_inode_num`. The mapping
covers whole pages, `mapped` bytes. -/
structure Wfs where
  disk : Mem
  mapped : Nat
  len : Nat
  head : UInt32
  curInodeNum : UInt32

namespace Wfs

/-! ## Lookup -/

/-- The loop of `number_to_inode` (`mount.wfs.c:41-46`): the last entry with this number, from
`startLog` on. -/
def scanLog (m : Mem) (endLog : Nat) (inodeNum : UInt32) : Nat → Nat → Option Nat → Option Nat
  | 0, _, curLog => curLog
  | fuel + 1, startLog, curLog =>
    if startLog < endLog then
      scanLog m endLog inodeNum fuel
        (startLog + sizeofInode + (inodeAt m startLog).size.toNat)
        (if (inodeAt m startLog).inodeNumber = inodeNum then some startLog else curLog)
    else curLog

/-- `number_to_inode` (`mount.wfs.c:36-51`). The loop moves on by at least 44 bytes a round, so
`head` rounds are enough. -/
def numberToInode (w : Wfs) (inodeNum : UInt32) : Option Nat :=
  match scanLog w.disk w.head.toNat inodeNum w.head.toNat sizeofSb none with
  | none => none
  | some curLog => if (inodeAt w.disk curLog).deleted ≠ 0 then none else some curLog

/-- `strcmp(m + a, s) == 0` for a string `s`. -/
def strcmpIs (m : Mem) (a : Nat) (s : Bytes) : Bool := m.slice a (s.length + 1) = s ++ [0]

/-- The search of `path_to_inode` among directory entries (`mount.wfs.c:66-71`), `count` of them
left to try from the `i`-th on. The `unsigned long` inode number is cut down to an `int`. -/
def findDentry (m : Mem) (dentry : Nat) (tok : Bytes) : Nat → Nat → UInt32
  | 0, _ => minusOne
  | count + 1, i =>
    if strcmpIs m (dentry + sizeofDentry * i) tok then
      m.u32 (dentry + sizeofDentry * i + maxFileNameLen)
    else findDentry m dentry tok count (i + 1)

/-- The number of directory entries in the data of a log entry. -/
def dentries (m : Mem) (log : Nat) : Nat := (inodeAt m log).size.toNat / sizeofDentry

/-- The loop of `path_to_inode` over the tokens (`mount.wfs.c:62-77`). It follows `root_log`
without a test, so a token behind a null pointer is a fault. -/
def walkPath (w : Wfs) : Option Nat → List Bytes → Option (Option Nat)
  | rootLog, [] => some rootLog
  | none, _ :: _ => none
  | some rootLog, tok :: toks =>
    let j := findDentry w.disk (rootLog + sizeofInode) tok (dentries w.disk rootLog) 0
    if j = minusOne then some none else walkPath w (numberToInode w j) toks

/-- `path_to_inode` (`mount.wfs.c:53-79`). The path is copied into 128 bytes, the last of them
a NUL. -/
def pathToInode (w : Wfs) (path : Bytes) : Option (Option Nat) :=
  if cstr path = [slash] then some (numberToInode w 0)
  else walkPath w (numberToInode w 0) (strtok ((cstr path).take 127))

/-! ## Operations that only read -/

/-- The fields of `struct stat` that `wfs_getattr` fills. -/
structure Stat where
  mode : UInt32
  uid : UInt32
  gid : UInt32
  atime : UInt32
  mtime : UInt32
  size : UInt32
  nlink : UInt32
  deriving DecidableEq, Repr

/-- `wfs_getattr` (`mount.wfs.c:140-165`). -/
def wfsGetattr (w : Wfs) (path : Bytes) : Option (Except Int Stat) :=
  (pathToInode w path).map fun
    | none => .error (-enoent)
    | some o =>
      let i := inodeAt w.disk o
      .ok ⟨i.mode, i.uid, i.gid, i.atime, i.mtime, i.size, i.links⟩

/-- The bytes that `wfs_read` takes (`mount.wfs.c:325-328`). The subtraction from the `unsigned`
size is one of `long`, its result taken as a `size_t`. -/
def readSize (fileSize : UInt32) (size : Nat) (offset : Int) : Nat :=
  let sizeRead := ((fileSize.toNat - offset) % 2 ^ 64).toNat
  if size > sizeRead then sizeRead else size

/-- `wfs_read` (`mount.wfs.c:311-333`): the bytes copied into the buffer. A `memcpy` of no bytes
reads nowhere. -/
def wfsRead (w : Wfs) (path : Bytes) (size : Nat) (offset : Int) : Option (Except Int Bytes) :=
  match pathToInode w path with
  | none => none
  | some none => some (.error (-enoent))
  | some (some o) =>
    let size := readSize (inodeAt w.disk o).size size offset
    let content := (o + sizeofInode : Nat) + offset
    if size = 0 ∨ 0 ≤ content ∧ content + size ≤ w.mapped then
      some (.ok (w.disk.slice content.toNat size))
    else none

/-- What `wfs_read` returns after these bytes: a `size_t` as an `int`. -/
def readResult (bs : Bytes) : Int := ((bs.length : Int) + 2 ^ 31) % 2 ^ 32 - 2 ^ 31

/-- The string at an address. -/
def stringAt (w : Wfs) (a : Nat) : Bytes := cstr (w.disk.slice a (w.mapped - a))

/-- `wfs_readdir` (`mount.wfs.c:369-390`): the names given to `filler`. -/
def wfsReaddir (w : Wfs) (path : Bytes) : Option (List Bytes) :=
  match pathToInode w path with
  | some (some curDir) =>
    some ([46] :: [46, 46] :: (List.range (dentries w.disk curDir)).map fun i =>
      w.stringAt (curDir + sizeofInode + sizeofDentry * i))
  | _ => none

/-! ## Operations that append to the log -/

/-- What a call takes from its surroundings: `getuid`, `getgid`, three readings of the clock and
the bytes of the block that `malloc` returns. -/
structure Env where
  uid : UInt32
  gid : UInt32
  atime : UInt32
  mtime : UInt32
  ctime : UInt32
  heap : Mem

/-- `memcpy` of `bs` to an offset of the disk; a fault past the mapping. -/
def store (w : Wfs) (o : Nat) (bs : Bytes) : Option Wfs :=
  if o + bs.length ≤ w.mapped then some { w with disk := w.disk.write o bs } else none

/-- `parent_inode->deleted = 1`. -/
def markDeleted (w : Wfs) (o : Nat) : Option Wfs := w.store (o + 4) (le32 1)

/-- `wp->head += n`. -/
def advance (w : Wfs) (n : Nat) : Wfs := { w with head := UInt32.ofNat (w.head.toNat + n) }

/-- The eight bytes of an `int` stored in an `unsigned long`. -/
def longBytes (n : UInt32) : Bytes :=
  le32 n ++ List.replicate 4 (if n.toNat < 2 ^ 31 then 0 else 255)

/-- The inode of the new entry of the parent (`mount.wfs.c:178-188`): `flags` and `mtime` are not
named in the initializer and become zero. -/
def newParentInode (p : Inode) : Inode :=
  { p with deleted := 0, flags := 0, mtime := 0 }

/-- The block with the new entry of the parent (`mount.wfs.c:190-200`), `data` the old directory
entries: inode and data copied in, the new entry's number, then its name, then the size. -/
def newParentEntry (heap : Mem) (p : Inode) (data : Bytes) (num : UInt32) (name : Bytes) : Mem :=
  let block := heap.write 0 (newParentInode p).bytes
  let block := block.write sizeofInode data
  let newDentry := sizeofInode + data.length
  let block := block.write (newDentry + maxFileNameLen) (longBytes num)
  let block := block.write newDentry (name ++ [0])
  block.write 24 (le32 (UInt32.ofNat (p.size.toNat + sizeofDentry)))

/-- The inode of a new file or directory (`mount.wfs.c:206-218`). -/
def newNode (num mode : UInt32) (env : Env) : Inode where
  inodeNumber := num
  deleted := 0
  mode := mode
  uid := env.uid
  gid := env.gid
  flags := 0
  size := 0
  atime := env.atime
  mtime := env.mtime
  ctime := env.ctime
  links := 1

/-- `wfs_mknod` and `wfs_mkdir`, which differ in the kind of the new inode only
(`mount.wfs.c:167-231`, `233-309`). -/
def makeNode (kind : UInt32) (w : Wfs) (path : Bytes) (mode : UInt32) (env : Env) :
    Option (Int × Wfs) := do
  let dirPath := dirname (cstr path)
  let baseName := basename (cstr path)
  -- a null `parent_inode` is followed
  let parent ← (← pathToInode w dirPath)
  let p := inodeAt w.disk parent
  let data := w.disk.slice (parent + sizeofInode) p.size.toNat
  let w ← w.markDeleted parent
  let num := w.curInodeNum + 1
  let w := { w with curInodeNum := num }
  -- `strcpy` past the end of the block
  guard (baseName.length + 1 ≤ sizeofDentry)
  let block := newParentEntry env.heap p data num baseName
  let w ← w.store w.head.toNat (block.slice 0 (sizeofInode + p.size.toNat + sizeofDentry))
  let w := w.advance (sizeofInode + (inodeAt w.disk parent).size.toNat + sizeofDentry)
  let w ← w.store w.head.toNat (newNode num (kind ||| mode) env).bytes
  return (0, w.advance sizeofInode)

/-- `wfs_mknod` (`mount.wfs.c:167-231`). -/
def wfsMknod (w : Wfs) (path : Bytes) (mode : UInt32) (env : Env) : Option (Int × Wfs) :=
  makeNode sIfreg w path mode env

/-- `wfs_mkdir` (`mount.wfs.c:233-309`). -/
def wfsMkdir (w : Wfs) (path : Bytes) (mode : UInt32) (env : Env) : Option (Int × Wfs) :=
  makeNode sIfdir w path mode env

/-- The bytes that `wfs_write` takes: `sizeof(buffer)` is the size of a pointer
(`mount.wfs.c:345-348`). -/
def writeSize (size : Nat) (offset : Int) : Nat :=
  let sizeWritten := ((8 - offset) % 2 ^ 64).toNat
  if size > sizeWritten then sizeWritten else size

/-- The inode of the new entry of a written file (`mount.wfs.c:349-361`). -/
def writtenInode (i : Inode) (size : Nat) (env : Env) : Inode :=
  { i with
    deleted := 0
    size := UInt32.ofNat size
    atime := env.atime
    mtime := env.mtime
    ctime := env.ctime }

/-- `wfs_write` (`mount.wfs.c:335-367`), `buffer i` the byte at `buffer + i`. The old entry is
marked before the test for a null pointer. The result is a `size_t` returned as an `int`. -/
def wfsWrite (w : Wfs) (path : Bytes) (buffer : Int → UInt8) (size : Nat) (offset : Int)
    (env : Env) : Option (Int × Wfs) := do
  let cur ← (← pathToInode w path)
  let w ← w.markDeleted cur
  let size := writeSize size offset
  let i := writtenInode (inodeAt w.disk cur) size env
  let newLog := w.head.toNat
  let w ← w.store newLog i.bytes
  let w ← w.store (newLog + sizeofInode)
    ((List.range size).map fun (k : Nat) => buffer (offset + k))
  return ((size + 2 ^ 31) % 2 ^ 32 - 2 ^ 31, w.advance (sizeofInode + i.size.toNat))

/-! ## Making, mounting and unmounting an image -/

/-- A disk image: the bytes of the file and its length. -/
structure Image where
  bytes : Mem
  len : Nat

/-- The inode of the root directory (`mkfs.wfs.c:30-42`). -/
def rootInode (env : Env) : Inode where
  inodeNumber := 0
  deleted := 0
  mode := sIfdir ||| 0o755
  uid := env.uid
  gid := env.gid
  flags := 0
  size := 0
  atime := env.atime
  mtime := env.mtime
  ctime := env.ctime
  links := 2

/-- `main` of `mkfs.wfs.c`: the superblock and the entry of the root directory. -/
def mkfs (image : Image) (env : Env) : Image :=
  { image with
    bytes := (image.bytes.write 0
      (le32 wfsMagic ++ le32 (UInt32.ofNat (sizeofSb + sizeofInode)))).write sizeofSb
        (rootInode env).bytes }

/-- `main` of `mount.wfs.c` up to `fuse_main` (`mount.wfs.c:436-463`). The mapping reaches to the
end of the last page and is zero behind the file. -/
def mount (image : Image) : Option Wfs :=
  let disk : Mem := fun a => if a < image.len then image.bytes a else 0
  if disk.u32 0 ≠ wfsMagic then none
  else some
    { disk := disk
      mapped := (image.len + 4095) / 4096 * 4096
      len := image.len
      head := disk.u32 4
      curInodeNum := 100 }

/-- What the mapping, which is `MAP_SHARED`, leaves in the file. -/
def unmount (w : Wfs) : Image where
  bytes := w.disk
  len := w.len

/-! ## Calls -/

/-- The calls that change the file system. -/
inductive Call where
  | mknod (path : Bytes) (mode : UInt32) (env : Env)
  | mkdir (path : Bytes) (mode : UInt32) (env : Env)
  | write (path : Bytes) (buffer : Int → UInt8) (size : Nat) (offset : Int) (env : Env)

/-- One call: its result and the state it leaves; `none` if the process dies in it. -/
def exec (w : Wfs) : Call → Option (Int × Wfs)
  | .mknod path mode env => w.wfsMknod path mode env
  | .mkdir path mode env => w.wfsMkdir path mode env
  | .write path buffer size offset env => w.wfsWrite path buffer size offset env

/-- The state after one call. -/
def next (w : Wfs) (c : Call) : Option Wfs := (w.exec c).map Prod.snd

end Wfs

end Cs537.P7
