import Cs537.P7.Log

/-!
# What the operations do to the log

`wfs_mknod`, `wfs_mkdir` and `wfs_write` all supersede one entry: they mark the live entry of
an inode as deleted and append a new entry with the same number. The first two append the
entry of the new inode as well. For each there is a closed form of its result on a disk that
holds a log, and the log it leaves.
-/

namespace Cs537.P7

open Cs537.Lib

theorem toNat_ofNat_of_lt {k : Nat} (h : k < 2 ^ 32) : (UInt32.ofNat k).toNat = k := by
  simpa using h

namespace Wfs

variable {w w' : Wfs} {es : List Entry} {o : Nat}

/-! ## The new entry of the parent -/

section Parent

variable (heap : Mem) (p : Inode) (data : Bytes) (num : UInt32) (name : Bytes)

/-- The directory entry at the end of the new entry of the parent. -/
def newDentry : Bytes :=
  (newParentEntry heap p data num name).slice (sizeofInode + data.length) sizeofDentry

@[simp] theorem length_newDentry : (newDentry heap p data num name).length = sizeofDentry :=
  Mem.length_slice _ _ _

theorem inodeAt_newParentEntry :
    inodeAt (newParentEntry heap p data num name) 0 =
      { newParentInode p with size := UInt32.ofNat (p.size.toNat + sizeofDentry) } := by
  have hbytes : inodeAt (heap.write 0 (newParentInode p).bytes) 0 = newParentInode p := by
    apply inodeAt_of_slice
    rw [← Inode.length_bytes (newParentInode p)]
    exact Mem.slice_write_self heap 0 _
  have hblock : inodeAt ((((heap.write 0 (newParentInode p).bytes).write sizeofInode data).write
      (sizeofInode + data.length + maxFileNameLen) (longBytes num)).write
      (sizeofInode + data.length) (name ++ [0])) 0 = newParentInode p := by
    rw [← hbytes]
    apply inodeAt_congr
    intro i hi
    rw [hbytes, Mem.write_of_lt (by omega), Mem.write_of_lt (by omega),
      Mem.write_of_lt (by omega)]
  unfold newParentEntry
  simp only
  rw [← Nat.zero_add 24, inodeAt_write_size, hblock]

/-- The new entry of the parent: the old data and one more directory entry. -/
theorem entryAt_newParentEntry (hdata : data.length = p.size.toNat)
    (hsize : p.size.toNat + sizeofDentry < 2 ^ 32) :
    (entryAt (newParentEntry heap p data num name) 0).data =
      data ++ newDentry heap p data num name := by
  simp only [entryAt, inodeAt_newParentEntry, toNat_ofNat_of_lt hsize]
  rw [Nat.zero_add, Mem.slice_add, ← hdata]
  congr 1
  unfold newParentEntry
  simp only
  have hs : sizeofInode = 44 := rfl
  rw [Mem.slice_write_of_disjoint (by rw [length_le32]; omega),
    Mem.slice_write_of_disjoint (by omega), Mem.slice_write_of_disjoint (by omega)]
  exact Mem.slice_write_self _ _ data

/-- The name of the new directory entry is a string at its start. -/
theorem newDentry_name (hname : name.length + 1 ≤ sizeofDentry) :
    ∃ rest, newDentry heap p data num name = name ++ 0 :: rest := by
  have hs : sizeofInode = 44 := rfl
  have hsplit : sizeofDentry = (name ++ [0]).length + (sizeofDentry - (name ++ [0]).length) := by
    rw [List.length_append, List.length_singleton]
    omega
  unfold newDentry newParentEntry
  simp only
  rw [Mem.slice_write_of_disjoint (by rw [length_le32]; omega), hsplit, Mem.slice_add,
    Mem.slice_write_self]
  simp

/-- The number of the new directory entry, when its name does not reach into it. -/
theorem newDentry_number (hname : name.length + 1 ≤ maxFileNameLen) :
    ((newDentry heap p data num name).drop maxFileNameLen).take 4 = le32 num := by
  have hs : sizeofInode = 44 := rfl
  unfold newDentry
  rw [Mem.slice_drop_take _ _ (by decide)]
  unfold newParentEntry
  simp only
  rw [Mem.slice_write_of_disjoint (by rw [length_le32]; omega),
    Mem.slice_write_of_disjoint (by rw [List.length_append, List.length_singleton]; omega)]
  have h := Mem.slice_write_inside (m := (heap.write 0 (newParentInode p).bytes).write sizeofInode
    data) (o := sizeofInode + data.length + maxFileNameLen) (a := 0) (n := 4)
    (h := (by simp [longBytes] : 0 + 4 ≤ (longBytes num).length))
  rw [Nat.add_zero] at h
  rw [h, List.drop_zero, longBytes, List.take_append_of_le_length (by simp),
    List.take_of_length_le (by simp)]

/-- A name of 32 bytes ends in the first byte of the number, which its NUL takes the place of. -/
theorem newDentry_number_of_full (hname : name.length = maxFileNameLen) :
    ((newDentry heap p data num name).drop maxFileNameLen).take 4 = 0 :: (le32 num).tail := by
  have hs : sizeofInode = 44 := rfl
  have hlast (m : Mem) : m.write (sizeofInode + data.length) (name ++ [0]) =
      (m.write (sizeofInode + data.length) name).write
        (sizeofInode + data.length + maxFileNameLen) [0] := by
    rw [Mem.write_append, hname]
  have hfirst (m : Mem) (a : Nat) : (m.write a [0]).slice a 1 = [0] := Mem.slice_write_self m a [0]
  have hrest (m : Mem) (a : Nat) : (m.write a (longBytes num)).slice (a + 1) 3 = (le32 num).tail := by
    rw [Mem.slice_write_inside (by simp [longBytes])]
    rfl
  unfold newDentry
  rw [Mem.slice_drop_take _ _ (by decide)]
  unfold newParentEntry
  simp only
  rw [Mem.slice_write_of_disjoint (by rw [length_le32]; omega), hlast,
    show (4 : Nat) = 1 + 3 from rfl, Mem.slice_add, hfirst,
    Mem.slice_write_of_disjoint (by simp), Mem.slice_write_of_disjoint (by omega), hrest]
  rfl

end Parent

/-! ## Closed forms -/

/-- The block of bytes that `wfs_mknod` and `wfs_mkdir` append for the parent. -/
def parentLength (w : Wfs) (o : Nat) : Nat :=
  sizeofInode + (inodeAt w.disk o).size.toNat + sizeofDentry

/-- The state that `wfs_mknod` and `wfs_mkdir` leave when they return, the entry of the parent
at offset `o`. -/
def made (kind : UInt32) (w : Wfs) (o : Nat) (path : Bytes) (mode : UInt32) (env : Env) : Wfs :=
  let p := inodeAt w.disk o
  let data := w.disk.slice (o + sizeofInode) p.size.toNat
  let num := w.curInodeNum + 1
  let block := newParentEntry env.heap p data num (basename (cstr path))
  { w with
    disk := ((w.disk.write (o + 4) (le32 1)).write w.head.toNat
      (block.slice 0 (w.parentLength o))).write (w.head.toNat + w.parentLength o)
        (newNode num (kind ||| mode) env).bytes
    head := UInt32.ofNat (w.head.toNat + w.parentLength o + sizeofInode)
    curInodeNum := num }

/-- The inode that is read again after the first `memcpy` lies below the bytes it wrote. -/
theorem size_reread (bs : Bytes) (hbelow : o + sizeofInode ≤ w.head.toNat) :
    (inodeAt ((w.disk.write (o + 4) (le32 1)).write w.head.toNat bs) o).size =
      (inodeAt w.disk o).size := by
  have hkeep : inodeAt ((w.disk.write (o + 4) (le32 1)).write w.head.toNat bs) o =
      inodeAt (w.disk.write (o + 4) (le32 1)) o := by
    apply inodeAt_congr
    intro i hi
    exact Mem.write_of_lt (by omega)
  rw [hkeep, inodeAt_mark]

theorem makeNode_eq (kind : UInt32) (path : Bytes) (mode : UInt32) (env : Env)
    (hpath : w.pathToInode (dirname (cstr path)) = some (some o))
    (hbelow : o + sizeofInode ≤ w.head.toNat)
    (hwrap : w.head.toNat + w.parentLength o ≤ w.mapped →
      w.head.toNat + w.parentLength o < 2 ^ 32) :
    makeNode kind w path mode env =
      if (basename (cstr path)).length + 1 ≤ sizeofDentry ∧
          w.head.toNat + w.parentLength o + sizeofInode ≤ w.mapped then
        some (0, made kind w o path mode env)
      else none := by
  have hs : sizeofInode = 44 := rfl
  have hreread (bs : Bytes) := size_reread bs hbelow
  simp only [makeNode, markDeleted, store, advance, hpath, Option.bind_eq_bind, Option.bind_some,
    Mem.length_slice, length_le32, guard, Inode.length_bytes]
  have hlen : sizeofInode + (inodeAt w.disk o).size.toNat + sizeofDentry = w.parentLength o := rfl
  by_cases hname : (basename (cstr path)).length + 1 ≤ sizeofDentry
  · by_cases hparent : w.head.toNat + w.parentLength o ≤ w.mapped
    · have hhead : (UInt32.ofNat (w.head.toNat + w.parentLength o)).toNat =
          w.head.toNat + w.parentLength o := toNat_ofNat_of_lt (hwrap hparent)
      rw [if_pos (show o + 4 + 4 ≤ w.mapped by omega), if_pos hname]
      simp only [Option.bind_some, Option.pure_def, hlen, hparent, if_true, hreread, hhead, hname,
        true_and]
      by_cases hfits : w.head.toNat + w.parentLength o + sizeofInode ≤ w.mapped
      · rw [if_pos hfits, if_pos hfits]
        simp only [Option.bind_some, hhead, made]
      · rw [if_neg hfits, if_neg hfits, Option.bind_none]
    · have hno : ¬ ((basename (cstr path)).length + 1 ≤ sizeofDentry ∧
          w.head.toNat + w.parentLength o + sizeofInode ≤ w.mapped) := by omega
      rw [if_neg hno]
      by_cases hmark : o + 4 + 4 ≤ w.mapped
      · rw [if_pos hmark, if_pos hname]
        simp only [Option.bind_some, Option.pure_def, hlen, hparent, if_false, Option.bind_none]
      · rw [if_neg hmark, Option.bind_none]
  · have hno : ¬ ((basename (cstr path)).length + 1 ≤ sizeofDentry ∧
        w.head.toNat + w.parentLength o + sizeofInode ≤ w.mapped) := fun h => hname h.1
    rw [if_neg hno, if_neg hname]
    by_cases hmark : o + 4 + 4 ≤ w.mapped
    · rw [if_pos hmark, Option.bind_some]
      rfl
    · rw [if_neg hmark, Option.bind_none]

/-- The state that `wfs_write` leaves when it returns, the entry of the file at offset `o`. -/
def written (w : Wfs) (o : Nat) (buffer : Int → UInt8) (size : Nat) (offset : Int)
    (env : Env) : Wfs :=
  let size := writeSize size offset
  { w with
    disk := (w.disk.write (o + 4) (le32 1)).write w.head.toNat
      ((writtenInode (inodeAt w.disk o) size env).bytes ++
        (List.range size).map fun (k : Nat) => buffer (offset + k))
    head := UInt32.ofNat (w.head.toNat + (sizeofInode + size)) }

theorem wfsWrite_eq {path : Bytes} (buffer : Int → UInt8) (size : Nat) (offset : Int) (env : Env)
    (hpath : w.pathToInode path = some (some o))
    (hbelow : o + sizeofInode ≤ w.head.toNat)
    (hwrap : w.head.toNat + sizeofInode + writeSize size offset ≤ w.mapped →
      w.head.toNat + sizeofInode + writeSize size offset < 2 ^ 32) :
    w.wfsWrite path buffer size offset env =
      if w.head.toNat + sizeofInode + writeSize size offset ≤ w.mapped then
        some (((writeSize size offset : Int) + 2 ^ 31) % 2 ^ 32 - 2 ^ 31,
          w.written o buffer size offset env)
      else none := by
  have hs : sizeofInode = 44 := rfl
  have hinode : writtenInode (inodeAt (w.disk.write (o + 4) (le32 1)) o) (writeSize size offset)
      env = writtenInode (inodeAt w.disk o) (writeSize size offset) env := by
    rw [inodeAt_mark]
    rfl
  simp only [wfsWrite, markDeleted, store, advance, hpath, Option.bind_eq_bind, Option.bind_some,
    length_le32, Inode.length_bytes, List.length_map, List.length_range]
  by_cases hfits : w.head.toNat + sizeofInode + writeSize size offset ≤ w.mapped
  · have hlt := hwrap hfits
    have hsize : (UInt32.ofNat (writeSize size offset)).toNat = writeSize size offset :=
      toNat_ofNat_of_lt (by omega)
    rw [if_pos (show o + 4 + 4 ≤ w.mapped by omega), Option.bind_some, if_pos hfits]
    simp only [hinode]
    rw [if_pos (by omega), Option.bind_some, if_pos hfits, Option.bind_some]
    unfold written
    simp only [Mem.write_append, Inode.length_bytes]
    change some (_, _) = _
    simp only [writtenInode, hsize]
  · rw [if_neg hfits]
    by_cases hmark : o + 4 + 4 ≤ w.mapped
    · rw [if_pos hmark, Option.bind_some]
      by_cases hhead : w.head.toNat + sizeofInode ≤ w.mapped
      · rw [if_pos hhead, Option.bind_some, if_neg hfits, Option.bind_none]
      · rw [if_neg hhead, Option.bind_none]
    · rw [if_neg hmark, Option.bind_none]

/-! ## The log afterwards -/

/-- At offset `o` lies `e`, the live entry of its inode, between `pre` and `post`. -/
structure Found (es : List Entry) (o : Nat) (pre : List Entry) (e : Entry)
    (post : List Entry) : Prop where
  last : IsLast Entry.number es e.number pre e post
  live : e.Live
  offset : o = sizeofSb + logLength pre

/-- A path that resolves leads to the live entry of an inode. -/
theorem Holds.found (h : w.Holds es) {path : Bytes}
    (hpath : w.pathToInode path = some (some o)) : ∃ pre e post, Found es o pre e post := by
  obtain ⟨n, hn⟩ := pathToInode_eq_some hpath
  obtain ⟨pre, e, post, hlast, hlive, ho⟩ := (numberToInode_eq_some_iff h).mp hn
  refine ⟨pre, e, post, ?_, hlive, ho⟩
  rw [hlast.key_eq]
  exact hlast

variable {pre post : List Entry} {e : Entry}

/-- The entries of the log after the one at `o` was superseded. -/
theorem Found.mem_superseded (hf : Found es o pre e post) {more : List Entry} {x : Entry}
    (hx : x ∈ pre ++ e.marked :: post ++ more) : x ∈ es ∨ x = e.marked ∨ x ∈ more := by
  rw [hf.last.split]
  rw [List.mem_append, List.mem_append, List.mem_cons] at hx
  rcases hx with (hx | hx | hx) | hx
  · exact .inl (List.mem_append_left _ hx)
  · exact .inr (.inl hx)
  · exact .inl (List.mem_append_right _ (List.mem_cons_of_mem _ hx))
  · exact .inr (.inr hx)

theorem Holds.entryAt_eq (h : w.Holds es) (hf : Found es o pre e post) :
    entryAt w.disk o = e := by
  rw [hf.offset]
  unfold Holds at h
  rw [hf.last.split] at h
  exact LogIs.entry_eq h

theorem Holds.inodeAt_eq (h : w.Holds es) (hf : Found es o pre e post) :
    inodeAt w.disk o = e.inode := congrArg Entry.inode (h.entryAt_eq hf)

theorem Holds.below_head (h : w.Holds es) (hf : Found es o pre e post) :
    o + sizeofInode ≤ w.head.toNat := by
  have hhead := h.head_eq
  rw [hf.last.split, logLength_append, logLength_cons] at hhead
  have ho := hf.offset
  unfold Entry.length at hhead
  omega

/-- The log with the entry at `o` marked as deleted. -/
theorem Holds.mark (h : w.Holds es) (hf : Found es o pre e post) :
    LogIs (w.disk.write (o + 4) (le32 1)) sizeofSb (pre ++ e.marked :: post) w.head.toNat := by
  rw [hf.offset]
  apply LogIs.mark
  rw [← hf.last.split]
  exact h

/-- The new entry of the parent is a live one of the same inode. -/
theorem number_live_of_newParent {e e' : Entry} {size : UInt32}
    (h : e'.inode = { newParentInode e.inode with size := size }) :
    e'.number = e.number ∧ e'.Live := by
  unfold Entry.number Entry.Live
  rw [h]
  exact ⟨rfl, rfl⟩

/-- The new entry of a written file is a live one of the same inode. -/
theorem number_live_of_written {e e' : Entry} {size : Nat} {env : Env}
    (h : e'.inode = writtenInode e.inode size env) : e'.number = e.number ∧ e'.Live := by
  unfold Entry.number Entry.Live
  rw [h]
  exact ⟨rfl, rfl⟩

/-- The entry of a new inode. -/
def nodeEntry (num mode : UInt32) (env : Env) : Entry where
  inode := newNode num mode env
  data := []
  fits := rfl

theorem nodeEntry_bytes (num mode : UInt32) (env : Env) :
    (nodeEntry num mode env).bytes = (newNode num mode env).bytes := List.append_nil _

/-- `wfs_mknod` and `wfs_mkdir` supersede the entry of the parent by one with a further directory
entry and append the entry of the new inode. -/
theorem Holds.made (h : w.Holds es) (hf : Found es o pre e post) (kind : UInt32) (path : Bytes)
    (mode : UInt32) (env : Env)
    (hwrap : w.head.toNat + w.parentLength o + sizeofInode < 2 ^ 32) :
    ∃ e' : Entry,
      e'.inode = { newParentInode e.inode with
        size := UInt32.ofNat (e.inode.size.toNat + sizeofDentry) } ∧
      e'.data = e.data ++
        newDentry env.heap e.inode e.data (w.curInodeNum + 1) (basename (cstr path)) ∧
      (made kind w o path mode env).Holds
        (pre ++ e.marked :: post ++ [e', nodeEntry (w.curInodeNum + 1) (kind ||| mode) env]) := by
  have hinode := h.inodeAt_eq hf
  have hdata : w.disk.slice (o + sizeofInode) e.inode.size.toNat = e.data := by
    rw [← hinode]
    exact congrArg Entry.data (h.entryAt_eq hf)
  have hlen : w.parentLength o = sizeofInode + (e.inode.size.toNat + sizeofDentry) := by
    rw [parentLength, hinode, Nat.add_assoc]
  have hsize : e.inode.size.toNat + sizeofDentry < 2 ^ 32 := by omega
  have hblock := inodeAt_newParentEntry env.heap e.inode e.data (w.curInodeNum + 1)
    (basename (cstr path))
  refine ⟨entryAt (newParentEntry env.heap e.inode e.data (w.curInodeNum + 1)
    (basename (cstr path))) 0, hblock, ?_, ?_⟩
  · exact entryAt_newParentEntry env.heap e.inode e.data _ _ e.fits hsize
  · have hlength : (entryAt (newParentEntry env.heap e.inode e.data (w.curInodeNum + 1)
        (basename (cstr path))) 0).length = w.parentLength o := by
      rw [hlen, ← toNat_ofNat_of_lt hsize]
      unfold Entry.length
      simp only [entryAt, hblock]
    have hparent := (h.mark hf).snoc (newParentEntry env.heap e.inode e.data
      (w.curInodeNum + 1) (basename (cstr path))) rfl
    rw [hlength] at hparent
    have hnode := hparent.snoc_bytes (nodeEntry (w.curInodeNum + 1) (kind ||| mode) env)
    have hend : (UInt32.ofNat (w.head.toNat + w.parentLength o + sizeofInode)).toNat =
        w.head.toNat + w.parentLength o + sizeofInode := toNat_ofNat_of_lt (by omega)
    rw [nodeEntry_bytes, List.append_assoc] at hnode
    unfold Holds Wfs.made
    simp only [hinode, hdata, hend]
    exact hnode

/-- `wfs_write` supersedes the entry of the file by one that holds the written bytes only. -/
theorem Holds.written (h : w.Holds es) (hf : Found es o pre e post) (buffer : Int → UInt8)
    (size : Nat) (offset : Int) (env : Env)
    (hwrap : w.head.toNat + sizeofInode + writeSize size offset < 2 ^ 32) :
    ∃ e' : Entry,
      e'.inode = writtenInode e.inode (writeSize size offset) env ∧
      e'.data = ((List.range (writeSize size offset)).map fun (k : Nat) =>
        buffer (offset + k)) ∧
      (w.written o buffer size offset env).Holds (pre ++ e.marked :: post ++ [e']) := by
  have hsize : (UInt32.ofNat (writeSize size offset)).toNat = writeSize size offset :=
    toNat_ofNat_of_lt (by omega)
  have hdata : ((List.range (writeSize size offset)).map fun (k : Nat) =>
      buffer (offset + k)).length =
        (writtenInode e.inode (writeSize size offset) env).size.toNat := by
    rw [List.length_map, List.length_range]
    exact hsize.symm
  refine ⟨⟨_, _, hdata⟩, rfl, rfl, ?_⟩
  have hsnoc := (h.mark hf).snoc_bytes ⟨_, _, hdata⟩
  have hend : (UInt32.ofNat (w.head.toNat + (sizeofInode + writeSize size offset))).toNat =
      w.head.toNat + (sizeofInode + writeSize size offset) := toNat_ofNat_of_lt (by omega)
  unfold Holds Wfs.written
  simp only [h.inodeAt_eq hf, hend]
  unfold Entry.length at hsnoc
  simp only [writtenInode, hsize] at hsnoc
  exact hsnoc

/-! ## Calls that return -/

/-- What a call of `wfs_mknod` or `wfs_mkdir` that returns did on a disk with the log `es`: the
entry `e` of the parent at offset `o` was superseded by `e'`. -/
structure Made (w w' : Wfs) (es : List Entry) (kind : UInt32) (path : Bytes) (mode : UInt32)
    (env : Env) (o : Nat) (pre : List Entry) (e : Entry) (post : List Entry) (e' : Entry) :
    Prop where
  resolves : w.pathToInode (dirname (cstr path)) = some (some o)
  found : Found es o pre e post
  name_le : (basename (cstr path)).length + 1 ≤ sizeofDentry
  room : w.head.toNat + w.parentLength o + sizeofInode ≤ w.mapped
  wrap : w.head.toNat + w.parentLength o + sizeofInode < 2 ^ 32
  state : w' = made kind w o path mode env
  inode : e'.inode = { newParentInode e.inode with
    size := UInt32.ofNat (e.inode.size.toNat + sizeofDentry) }
  data : e'.data = e.data ++
    newDentry env.heap e.inode e.data (w.curInodeNum + 1) (basename (cstr path))
  holds : w'.Holds (pre ++ e.marked :: post ++
    [e', nodeEntry (w.curInodeNum + 1) (kind ||| mode) env])

/-- `wfs_mknod` and `wfs_mkdir` follow the pointer to the parent. -/
theorem pathToInode_of_makeNode {kind mode : UInt32} {path : Bytes} {env : Env} {r : Int}
    (h : makeNode kind w path mode env = some (r, w')) :
    ∃ o, w.pathToInode (dirname (cstr path)) = some (some o) := by
  simp only [makeNode, Option.bind_eq_bind, Option.bind_eq_some_iff] at h
  obtain ⟨found, hfound, o, rfl, -⟩ := h
  exact ⟨o, hfound⟩

/-- `wfs_mknod` and `wfs_mkdir` return 0 if they return. -/
theorem makeNode_result {kind mode : UInt32} {path : Bytes} {env : Env} {r : Int}
    (h : makeNode kind w path mode env = some (r, w')) : r = 0 := by
  simp only [makeNode, Option.bind_eq_bind, Option.bind_eq_some_iff, Option.pure_def,
    Option.some.injEq, Prod.mk.injEq] at h
  obtain ⟨-, -, -, -, -, -, -, -, -, -, -, -, rfl, -⟩ := h
  rfl

/-- `wfs_write` follows the pointer to the file. -/
theorem pathToInode_of_wfsWrite {path : Bytes} {buffer : Int → UInt8} {size : Nat} {offset : Int}
    {env : Env} {r : Int} (h : w.wfsWrite path buffer size offset env = some (r, w')) :
    ∃ o, w.pathToInode path = some (some o) := by
  simp only [wfsWrite, Option.bind_eq_bind, Option.bind_eq_some_iff] at h
  obtain ⟨found, hfound, o, rfl, -⟩ := h
  exact ⟨o, hfound⟩

/-- A write that returns left the old entry marked. -/
theorem wfsWrite_marks {path : Bytes} {buffer : Int → UInt8} {size : Nat} {offset : Int}
    {env : Env} {r : Int} (hpath : w.pathToInode path = some (some o))
    (hbelow : o + sizeofInode ≤ w.head.toNat)
    (h : w.wfsWrite path buffer size offset env = some (r, w')) :
    (inodeAt w'.disk o).deleted = 1 := by
  have hs : sizeofInode = 44 := rfl
  simp only [wfsWrite, markDeleted, store, advance, hpath, Option.bind_eq_bind, Option.bind_some,
    Option.bind_eq_some_iff, Option.ite_none_right_eq_some, Option.some.injEq, Option.pure_def,
    Prod.mk.injEq] at h
  obtain ⟨_, ⟨-, rfl⟩, _, ⟨-, rfl⟩, _, ⟨-, rfl⟩, -, rfl⟩ := h
  simp only
  have hkeep {m : Mem} {a : Nat} {bs : Bytes} (ha : w.head.toNat ≤ a) :
      inodeAt (m.write a bs) o = inodeAt m o := by
    apply inodeAt_congr
    intro i hi
    exact Mem.write_of_lt (by omega)
  rw [hkeep (by omega), hkeep le_rfl, inodeAt_mark]

/-- So it changed the disk. -/
theorem Holds.wfsWrite_changes (h : w.Holds es) {path : Bytes} {buffer : Int → UInt8} {size : Nat}
    {offset : Int} {env : Env} {r : Int}
    (hwrite : w.wfsWrite path buffer size offset env = some (r, w')) : w'.disk ≠ w.disk := by
  obtain ⟨o, hpath⟩ := pathToInode_of_wfsWrite hwrite
  obtain ⟨pre, e, post, hf⟩ := h.found hpath
  have hmarked := wfsWrite_marks hpath (h.below_head hf) hwrite
  have hlive : e.inode.deleted = 0 := hf.live
  intro hsame
  rw [hsame, h.inodeAt_eq hf, hlive] at hmarked
  exact absurd hmarked (by decide)

/-- A call of `wfs_mknod` or `wfs_mkdir` that returns. -/
theorem Holds.makeNode_returns (h : w.Holds es) {kind mode : UInt32} {path : Bytes} {env : Env}
    {r : Int}
    (hwrap : ∀ o, w.pathToInode (dirname (cstr path)) = some (some o) →
      w.head.toNat + w.parentLength o + sizeofInode < 2 ^ 32 ∨ w.mapped < 2 ^ 32)
    (hmake : makeNode kind w path mode env = some (r, w')) :
    r = 0 ∧ ∃ o pre e post e', Made w w' es kind path mode env o pre e post e' := by
  obtain ⟨o, hpath⟩ := pathToInode_of_makeNode hmake
  obtain ⟨pre, e, post, hf⟩ := h.found hpath
  have hsmall := hwrap o hpath
  rw [makeNode_eq kind path mode env hpath (h.below_head hf) (by omega),
    Option.ite_none_right_eq_some] at hmake
  obtain ⟨⟨hname, hroom⟩, hmade⟩ := hmake
  simp only [Option.some.injEq, Prod.mk.injEq] at hmade
  obtain ⟨rfl, rfl⟩ := hmade
  have hlt : w.head.toNat + w.parentLength o + sizeofInode < 2 ^ 32 := by omega
  obtain ⟨e', hinode, hdata, hholds⟩ := h.made hf kind path mode env hlt
  exact ⟨rfl, o, pre, e, post, e', hpath, hf, hname, hroom, hlt, rfl, hinode, hdata, hholds⟩

/-- What a call of `wfs_write` that returns did on a disk with the log `es`: the entry `e` of the
file at offset `o` was superseded by `e'`. -/
structure Wrote (w w' : Wfs) (es : List Entry) (path : Bytes) (buffer : Int → UInt8) (size : Nat)
    (offset : Int) (env : Env) (o : Nat) (pre : List Entry) (e : Entry) (post : List Entry)
    (e' : Entry) : Prop where
  resolves : w.pathToInode path = some (some o)
  found : Found es o pre e post
  room : w.head.toNat + sizeofInode + writeSize size offset ≤ w.mapped
  wrap : w.head.toNat + sizeofInode + writeSize size offset < 2 ^ 32
  state : w' = w.written o buffer size offset env
  inode : e'.inode = writtenInode e.inode (writeSize size offset) env
  data : e'.data = (List.range (writeSize size offset)).map fun (k : Nat) => buffer (offset + k)
  holds : w'.Holds (pre ++ e.marked :: post ++ [e'])

/-- A call of `wfs_write` that returns. -/
theorem Holds.wfsWrite_returns (h : w.Holds es) {path : Bytes} {buffer : Int → UInt8} {size : Nat}
    {offset : Int} {env : Env} {r : Int}
    (hwrap : w.head.toNat + sizeofInode + writeSize size offset < 2 ^ 32 ∨ w.mapped < 2 ^ 32)
    (hwrite : w.wfsWrite path buffer size offset env = some (r, w')) :
    r = ((writeSize size offset : Int) + 2 ^ 31) % 2 ^ 32 - 2 ^ 31 ∧
      ∃ o pre e post e', Wrote w w' es path buffer size offset env o pre e post e' := by
  obtain ⟨o, hpath⟩ := pathToInode_of_wfsWrite hwrite
  obtain ⟨pre, e, post, hf⟩ := h.found hpath
  rw [wfsWrite_eq buffer size offset env hpath (h.below_head hf) (by omega),
    Option.ite_none_right_eq_some] at hwrite
  obtain ⟨hroom, hwritten⟩ := hwrite
  simp only [Option.some.injEq, Prod.mk.injEq] at hwritten
  obtain ⟨rfl, rfl⟩ := hwritten
  have hlt : w.head.toNat + sizeofInode + writeSize size offset < 2 ^ 32 := by omega
  obtain ⟨e', hinode, hdata, hholds⟩ := h.written hf buffer size offset env hlt
  exact ⟨rfl, o, pre, e, post, e', hpath, hf, hroom, hlt, rfl, hinode, hdata, hholds⟩

end Wfs

end Cs537.P7
