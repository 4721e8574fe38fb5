import Cs537.Lib.Run
import Cs537.P5.Extents
import Cs537.P5.Truncating
import Cs537.P5.Memory

/-!
# Volumes

The file system over whole runs: inodes are allocated, written, and freed when their last link and
reference have gone. It behaves like a table of byte lists, every inode on the disk is what it is in
memory, and the bitmap marks the blocks of the files and nothing else.
-/

namespace Cs537.P5

open Cs537.Lib

/-- The blocks and the inodes in memory. -/
structure Volume where
  fs : Fs
  inode : Nat → Dinode

/-- What the file system is for. -/
abbrev FlatFiles := Nat → Option Bytes

namespace Volume

open Fs

inductive Event
  | write (i off : Nat) (src : Bytes)
  /-- `ialloc` returns inode `i`. -/
  | create (i : Nat) (type : UInt16)
  /-- `iupdate` after a change of these fields. -/
  | update (i : Nat) (major minor nlink : UInt16)
  /-- `iput` with the last reference to an inode without links. -/
  | free (i : Nat)

/-- `T_DEV` (`stat.h`). -/
def tDev : UInt16 := 3

/-- Inode `i` is allocated. -/
def Live (sb : Superblock) (v : Volume) (i : Nat) : Prop :=
  0 < i ∧ i < sb.ninodes ∧ (v.inode i).type ≠ 0

instance (sb : Superblock) (v : Volume) (i : Nat) : Decidable (v.Live sb i) :=
  inferInstanceAs (Decidable (_ ∧ _ ∧ _))

def next (sb : Superblock) (v : Volume) : Event → Option Volume
  | .write i off src =>
    if v.Live sb i ∧ (v.inode i).type ≠ tDev then
      (writei sb v.fs i (v.inode i) off src).map fun r =>
        ⟨r.1, Function.update v.inode i r.2.1⟩
    else none
  | .create i type =>
    (ialloc sb v.fs type).bind fun r =>
      if r.2 = i ∧ type ≠ 0 then some ⟨r.1, Function.update v.inode i (dinode sb r.1.disk i)⟩
      else none
  | .update i major minor nlink =>
    if v.Live sb i then
      let ip := { v.inode i with major := major, minor := minor, nlink := nlink }
      some ⟨iupdate sb v.fs i ip, Function.update v.inode i ip⟩
    else none
  | .free i =>
    if v.Live sb i then
      (itrunc sb v.fs i (v.inode i)).map fun r =>
        let ip := { r.2 with type := 0 }
        ⟨iupdate sb r.1 i ip, Function.update v.inode i ip⟩
    else none

/-- The same events on byte lists. -/
def flatNext (files : FlatFiles) : Event → Option FlatFiles
  | .write i off src =>
    (files i).map fun data =>
      if data.length < off ∨ (off + src.length) % 2 ^ 32 < off ∨
          maxFile * bsize < off + src.length then files
      else Function.update files i (some (splice data off src))
  | .create i _ => if files i = none then some (Function.update files i (some [])) else none
  | .update _ _ _ _ => some files
  | .free i => (files i).map fun _ => Function.update files i none

/-- The blocks of a file of so many bytes. -/
def blocksOf (size : Nat) : Nat := (size + (bsize - 1)) / bsize

/-- The files of a volume. -/
def files (sb : Superblock) (v : Volume) : FileMap := fun i =>
  if v.Live sb i then some ((v.inode i).addrs, .of (blocksOf (v.inode i).size.toNat)) else none

def contents (sb : Superblock) (v : Volume) : FlatFiles := fun i =>
  if v.Live sb i then some (fileBytes v.fs.disk (v.inode i).addrs (v.inode i).size.toNat) else none

/-- The bitmap is right and the inodes are on the disk. -/
structure Good (sb : Superblock) (v : Volume) : Prop where
  layout : Layout sb v.fs.disk (v.files sb)
  synced : ∀ i, 0 < i → i < sb.ninodes → dinode sb v.fs.disk i = v.inode i

variable {sb : Superblock} {v w : Volume} {i j n off : Nat} {src : Bytes} {ip : Dinode}
  {disk disk' : Nat → Block} {fl fl' : FileMap} {s : Fs} {addrs addrs' : Addrs}

theorem files_of_live (h : v.Live sb i) :
    v.files sb i = some ((v.inode i).addrs, .of (blocksOf (v.inode i).size.toNat)) := if_pos h

theorem contents_of_live (h : v.Live sb i) : v.contents sb i =
    some (fileBytes v.fs.disk (v.inode i).addrs (v.inode i).size.toNat) := if_pos h

theorem length_fileBytes (disk : Nat → Block) (addrs : Addrs) (n : Nat) :
    (fileBytes disk addrs n).length = n := by
  unfold fileBytes
  rw [List.length_map, List.length_range]

theorem fileBytes_congr (h : ∀ o < n, fileByte disk' addrs' o = fileByte disk addrs o) :
    fileBytes disk' addrs' n = fileBytes disk addrs n :=
  List.map_congr_left fun o ho => h o (List.mem_range.mp ho)

/-- Overwriting bytes of a memory and of a list. -/
theorem map_write_range (m : Mem) (hoff : off ≤ n) :
    (List.range (max n (off + src.length))).map (m.write off src) =
      splice ((List.range n).map m) off src := by
  have hlength : ((List.range n).map m).length = n := by rw [List.length_map, List.length_range]
  refine List.ext_getElem? fun o => ?_
  rw [List.getElem?_map]
  by_cases ho : o < max n (off + src.length)
  · rw [List.getElem?_range ho, Option.map_some]
    by_cases hin : off ≤ o ∧ o < off + src.length
    · obtain ⟨k, rfl⟩ := Nat.exists_eq_add_of_le hin.1
      rw [getElem?_splice (by omega) (by omega)]
      unfold Mem.write
      rw [if_neg (by omega), Nat.add_sub_cancel_left, List.getElem?_eq_getElem (by omega)]
      rfl
    · rw [getElem?_splice_outside (by omega) (by omega), List.getElem?_map,
        List.getElem?_range (by omega), Option.map_some, Mem.write_of_disjoint (by omega)]
  · have hsplice : (splice ((List.range n).map m) off src).length = _ :=
      length_splice src (by omega)
    rw [List.getElem?_eq_none (by rw [List.length_range]; omega), Option.map_none,
      List.getElem?_eq_none (by omega)]

/-! ## Steps -/

/-- A layout with the same owners. -/
theorem layout_of_owns (h : Layout sb disk fl)
    (howns : ∀ p b, Owns disk fl' p b ↔ Owns disk fl p b)
    (hshaped : ∀ i addrs sh, fl' i = some (addrs, sh) → Shaped disk addrs sh) :
    Layout sb disk fl' :=
  ⟨h.metadata, h.exact.congr (fun _ => Iff.rfl) howns, hshaped⟩

/-- Files without blocks are the same as no files, for the bitmap. -/
theorem owns_of_empty (hi : fl i = none ∨ fl i = some (fun _ => 0, .of 0))
    (hi' : fl' i = none ∨ fl' i = some (fun _ => 0, .of 0)) (hothers : ∀ j, j ≠ i → fl' j = fl j)
    (p : Nat × Slot) (b : Nat) : Owns disk fl' p b ↔ Owns disk fl p b := by
  have hnone : ∀ {fl : FileMap}, fl i = none ∨ fl i = some (fun _ => 0, .of 0) → p.1 = i →
      ¬ Owns disk fl p b := by
    rintro fl hfl hp ⟨addrs, sh, hfile, hheld, -⟩
    rw [hp] at hfile
    rcases hfl with hfl | hfl
    · rw [hfl] at hfile
      cases hfile
    · rw [hfl] at hfile
      cases hfile
      cases hslot : p.2 with
      | data k =>
        rw [hslot] at hheld
        exact Nat.not_lt_zero k hheld
      | table =>
        rw [hslot] at hheld
        cases hheld
  by_cases hp : p.1 = i
  · exact iff_of_false (hnone hi' hp) (hnone hi hp)
  · unfold Owns
    rw [hothers _ hp]

/-- `iupdate` writes no block of a file and none of the bitmap. -/
theorem layout_iupdate (hsb : sb.LaidOut) (h : Layout sb s.disk fl) (hi : i < sb.ninodes)
    (ip : Dinode) : Layout sb (iupdate sb s i ip).disk fl := by
  have hblock := (iblock_lt hsb hi).2
  have hlt := sb.bmapstart_lt
  refine h.frame (fun b hb => used_congr (disk_logWrite_of_ne _ _ ?_)) hsb.size
    fun j addrs sh hj hne => disk_logWrite_of_ne _ _ ?_
  · have hge := (bblock_lt hb).1
    omega
  · have hge := (h.exact.sound (h.owns_table hj hne)).1
    omega

/-- The blocks of files are behind the metadata. -/
theorem fileBlock_congr (h : Layout sb disk fl) (hsame : ∀ c, sb.datastart ≤ c → disk' c = disk c)
    {sh : Shape} {k : Nat} (hj : fl j = some (addrs, sh)) (hk : k < sh.blocks) :
    fileBlock disk' addrs k = fileBlock disk addrs k := by
  unfold fileBlock
  rw [slotAddr_congr fun hne => hsame _ (h.exact.sound (h.owns_table hj hne)).1]
  exact hsame _ (h.marked (t := .data k) hj hk).1

theorem iupdate_same (hsb : sb.LaidOut) (hi : i < sb.ninodes) (s : Fs) (ip : Dinode) :
    ∀ c, sb.datastart ≤ c → (iupdate sb s i ip).disk c = s.disk c := by
  have hblock := (iblock_lt hsb hi).2
  have hlt := sb.bmapstart_lt
  exact fun c hc => disk_logWrite_of_ne _ _ (by omega)

theorem live_update_self (hi : 0 < i ∧ i < sb.ninodes) (s : Fs) :
    Live sb ⟨s, Function.update v.inode i ip⟩ i ↔ ip.type ≠ 0 := by
  have htype : (Function.update v.inode i ip i).type = ip.type :=
    congrArg Dinode.type (Function.update_self ..)
  unfold Live
  dsimp only
  rw [htype]
  exact ⟨fun h => h.2.2, fun h => ⟨hi.1, hi.2, h⟩⟩

theorem live_update_of_ne (sb : Superblock) (v : Volume) (ip : Dinode) (hj : j ≠ i) (s : Fs) :
    Live sb ⟨s, Function.update v.inode i ip⟩ j ↔ v.Live sb j := by
  unfold Live
  dsimp only
  rw [Function.update_of_ne hj]

theorem files_update_of_ne (hj : j ≠ i) (s : Fs) :
    files sb ⟨s, Function.update v.inode i ip⟩ j = v.files sb j := by
  have hlive := live_update_of_ne sb v ip hj s
  unfold files
  dsimp only
  rw [Function.update_of_ne hj]
  by_cases h : v.Live sb j
  · rw [if_pos (hlive.mpr h), if_pos h]
  · rw [if_neg (mt hlive.mp h), if_neg h]

theorem contents_update_of_ne (hj : j ≠ i) (hothers : v.Live sb j →
    fileBytes s.disk (v.inode j).addrs (v.inode j).size.toNat =
      fileBytes v.fs.disk (v.inode j).addrs (v.inode j).size.toNat) :
    contents sb ⟨s, Function.update v.inode i ip⟩ j = v.contents sb j := by
  have hlive := live_update_of_ne sb v ip hj s
  unfold contents
  dsimp only
  rw [Function.update_of_ne hj]
  by_cases h : v.Live sb j
  · rw [if_pos (hlive.mpr h), if_pos h, hothers h]
  · rw [if_neg (mt hlive.mp h), if_neg h]

/-- The files after a change of one inode that is allocated then. -/
theorem files_update (hi : 0 < i ∧ i < sb.ninodes) (htype : ip.type ≠ 0) :
    files sb ⟨s, Function.update v.inode i ip⟩ =
      setFile (v.files sb) i ip.addrs (.of (blocksOf ip.size.toNat)) := by
  funext j
  unfold setFile
  by_cases hj : j = i
  · subst hj
    rw [Function.update_self, files_of_live ((live_update_self hi s).mpr htype)]
    dsimp only
    rw [Function.update_self]
  · rw [Function.update_of_ne hj, files_update_of_ne hj]

theorem contents_update (hi : 0 < i ∧ i < sb.ninodes) (htype : ip.type ≠ 0)
    (hothers : ∀ j, j ≠ i → v.Live sb j →
      fileBytes s.disk (v.inode j).addrs (v.inode j).size.toNat =
        fileBytes v.fs.disk (v.inode j).addrs (v.inode j).size.toNat) :
    contents sb ⟨s, Function.update v.inode i ip⟩ =
      Function.update (v.contents sb) i (some (fileBytes s.disk ip.addrs ip.size.toNat)) := by
  funext j
  by_cases hj : j = i
  · subst hj
    rw [Function.update_self, contents_of_live ((live_update_self hi s).mpr htype)]
    dsimp only
    rw [Function.update_self]
  · rw [Function.update_of_ne hj, contents_update_of_ne hj (hothers j hj)]

theorem fileBytes_of_blocks (h : ∀ k < blocksOf n,
    fileBlock disk' addrs' k = fileBlock disk addrs k) :
    fileBytes disk' addrs' n = fileBytes disk addrs n := by
  refine fileBytes_congr fun o ho => ?_
  unfold fileByte
  rw [h]
  unfold blocksOf bsize
  omega

/-- A step that changes inode `i`, which is allocated then, and leaves the other files alone. -/
theorem good_update (ip : Dinode) (h : v.Good sb) (hi : 0 < i ∧ i < sb.ninodes)
    (htype : ip.type ≠ 0)
    (hlay : Layout sb s.disk (setFile (v.files sb) i ip.addrs (.of (blocksOf ip.size.toNat))))
    (hsync : ∀ j < sb.ninodes, dinode sb s.disk j = if j = i then ip else dinode sb v.fs.disk j)
    (hothers : ∀ j, j ≠ i → v.Live sb j → ∀ k < blocksOf (v.inode j).size.toNat,
      fileBlock s.disk (v.inode j).addrs k = fileBlock v.fs.disk (v.inode j).addrs k) :
    Good sb ⟨s, Function.update v.inode i ip⟩ ∧
      contents sb ⟨s, Function.update v.inode i ip⟩ =
        Function.update (v.contents sb) i (some (fileBytes s.disk ip.addrs ip.size.toNat)) := by
  refine ⟨⟨?_, fun j hpos hlt => ?_⟩, ?_⟩
  · rw [files_update hi htype]
    exact hlay
  · refine (hsync j hlt).trans (show _ = Function.update v.inode i ip j from ?_)
    by_cases hj : j = i
    · rw [if_pos hj, hj, Function.update_self]
    · rw [if_neg hj, h.synced j hpos hlt, Function.update_of_ne hj]
  · exact contents_update hi htype fun j hj hlivej =>
      fileBytes_of_blocks (hothers j hj hlivej)

/-- The inodes on the disk are in the inode blocks. -/
theorem dinode_congr (hsb : sb.LaidOut) (h : ∀ c < sb.bmapstart, disk' c = disk c)
    (hi : i < sb.ninodes) : dinode sb disk' i = dinode sb disk i := by
  unfold dinode
  rw [h _ (iblock_lt hsb hi).2]

theorem size_le (h : v.Good sb) (hlive : v.Live sb i) :
    (v.inode i).size.toNat ≤ maxFile * bsize := by
  have hle : blocksOf (v.inode i).size.toNat ≤ maxFile :=
    (h.layout.shaped i _ _ (files_of_live hlive)).le
  unfold blocksOf maxFile bsize at hle
  unfold maxFile bsize
  omega

/-- `writei` overwrites the bytes of one file, or refuses to. -/
theorem good_write (hsb : sb.LaidOut) (h : v.Good sb) (hlive : v.Live sb i)
    {r : Fs × Dinode × Int} (hw : writei sb v.fs i (v.inode i) off src = some r) :
    Good sb ⟨r.1, Function.update v.inode i r.2.1⟩ ∧
      flatNext (v.contents sb) (.write i off src) =
        some (contents sb ⟨r.1, Function.update v.inode i r.2.1⟩) := by
  have hrefused : ∀ m : Int, r = (v.fs, v.inode i, m) →
      (⟨r.1, Function.update v.inode i r.2.1⟩ : Volume) = v := by
    rintro m rfl
    dsimp only
    rw [Function.update_eq_self]
  have hflat : flatNext (v.contents sb) (.write i off src) =
      some (if (v.inode i).size.toNat < off ∨ (off + src.length) % 2 ^ 32 < off ∨
          maxFile * bsize < off + src.length then v.contents sb
        else Function.update (v.contents sb) i (some
          (splice (fileBytes v.fs.disk (v.inode i).addrs (v.inode i).size.toNat) off src))) := by
    unfold flatNext
    dsimp only
    rw [contents_of_live hlive, Option.map_some, length_fileBytes]
  rw [hflat]
  unfold writei at hw
  by_cases hbad : (v.inode i).size.toNat < off ∨ (off + src.length) % 2 ^ 32 < off
  · rw [if_pos hbad, Option.some.injEq] at hw
    rw [hrefused _ hw.symm, if_pos (hbad.imp_right .inl)]
    exact ⟨h, rfl⟩
  rw [if_neg hbad] at hw
  by_cases hbig : maxFile * bsize < off + src.length
  · rw [if_pos hbig, Option.some.injEq] at hw
    rw [hrefused _ hw.symm, if_pos (.inr (.inr hbig))]
    exact ⟨h, rfl⟩
  rw [if_neg hbig, Option.map_eq_some_iff] at hw
  obtain ⟨⟨s, addrs⟩, hloop, rfl⟩ := hw
  rw [not_or] at hbad
  have hgood : ¬ ((v.inode i).size.toNat < off ∨ (off + src.length) % 2 ^ 32 < off ∨
      maxFile * bsize < off + src.length) := by
    rintro (hsize | hover | hmax)
    · exact hbad.1 hsize
    · exact hbad.2 hover
    · exact hbig hmax
  rw [if_neg hgood]
  have hfile := files_of_live hlive
  have hn : off / bsize ≤ blocksOf (v.inode i).size.toNat := by
    have := hbad.1
    unfold blocksOf bsize
    omega
  obtain ⟨n', hwritten⟩ := written_writeLoop hsb _ _ _ _ _ _ _ (Nat.le_refl _) h.layout hfile hn
    (by omega) hloop
  have hbytes : ∀ o < max (v.inode i).size.toNat (off + src.length),
      fileByte s.disk addrs o = Mem.write (fileByte v.fs.disk (v.inode i).addrs) off src o := by
    intro o ho
    refine hwritten.bytes o ?_
    have := hbad.1
    unfold blocksOf bsize
    omega
  have hdinode : ∀ j, j < sb.ninodes → dinode sb s.disk j = dinode sb v.fs.disk j :=
    fun j hj => dinode_congr hsb hwritten.inodes hj
  have hsplice : (List.range (max (v.inode i).size.toNat (off + src.length))).map
      (fileByte s.disk addrs) =
      splice (fileBytes v.fs.disk (v.inode i).addrs (v.inode i).size.toNat) off src := by
    rw [List.map_congr_left fun o ho => hbytes o (List.mem_range.mp ho)]
    exact map_write_range _ (Nat.le_of_not_lt hbad.1)
  have hkept : ∀ j, j ≠ i → v.Live sb j → ∀ k < blocksOf (v.inode j).size.toNat,
      fileBlock s.disk (v.inode j).addrs k = fileBlock v.fs.disk (v.inode j).addrs k :=
    fun j hj hlivej k hk => hwritten.others j _ _ k hj (files_of_live hlivej) hk
  have hblocks := hwritten.blocks
  dsimp only
  by_cases hgrow : 0 < src.length ∧ (v.inode i).size.toNat < off + src.length
  · -- the file is longer, and `iupdate` writes its inode
    rw [if_pos hgrow]
    dsimp only
    have hsize : (UInt32.ofNat (off + src.length)).toNat = off + src.length :=
      UInt32.toNat_ofNat_of_lt' (Nat.lt_of_le_of_lt (Nat.le_of_not_lt hbig) (by decide))
    have hne : src ≠ [] := List.length_pos_iff.mp hgrow.1
    have hn' : n' = blocksOf (off + src.length) := by
      rw [hblocks, if_neg hne]
      have := hgrow.2
      unfold blocksOf bsize
      omega
    have hlay := layout_iupdate hsb hwritten.layout hlive.2.1
      { v.inode i with addrs := addrs, size := .ofNat (off + src.length) }
    rw [hn'] at hlay
    have hfile' : setFile (v.files sb) i addrs (.of n') i = some (addrs, .of n') :=
      Function.update_self ..
    have hstep := good_update { v.inode i with addrs := addrs, size := .ofNat (off + src.length) }
      h ⟨hlive.1, hlive.2.1⟩ hlive.2.2 (by rw [hsize]; exact hlay) (fun j hj => ?_)
      fun j hj hlivej k hk => ?_
    · refine ⟨hstep.1, ?_⟩
      rw [hstep.2, ← hsplice, Nat.max_eq_right (Nat.le_of_lt hgrow.2)]
      dsimp only
      rw [hsize]
      congr 3
      refine (fileBytes_of_blocks fun k hk => ?_).symm
      exact fileBlock_congr hwritten.layout (iupdate_same hsb hlive.2.1 s _) hfile' (hn' ▸ hk)
    · rw [dinode_iupdate, hdinode j hj]
    · have hfilej : setFile (v.files sb) i addrs (.of n') j = some ((v.inode j).addrs, _) :=
        (Function.update_of_ne hj ..).trans (files_of_live hlivej)
      exact (fileBlock_congr hwritten.layout (iupdate_same hsb hlive.2.1 s _) hfilej hk).trans
        (hkept j hj hlivej k hk)
  · -- no block is new, so the inode is as it was
    rw [if_neg hgrow]
    dsimp only
    have hend : src ≠ [] → off + src.length ≤ (v.inode i).size.toNat := fun hne =>
      Nat.le_of_not_lt fun hlt => hgrow ⟨List.length_pos_iff.mpr hne, hlt⟩
    have hend' : off + src.length ≤ (v.inode i).size.toNat := by
      by_cases hne : src = []
      · rw [hne]
        exact Nat.le_of_not_lt hbad.1
      · exact hend hne
    have hsize := size_le h hlive
    have haddrs : addrs = (v.inode i).addrs := by
      refine writeLoop_addrs hsb hfile _ _ _ _ h.layout ?_ hloop
      unfold blocksOf bsize
      omega
    have hn' : n' = blocksOf (v.inode i).size.toNat := by
      rw [hblocks]
      split
      · rfl
      · unfold blocksOf bsize
        omega
    have hip : { v.inode i with addrs := addrs } = v.inode i := by rw [haddrs]
    have hlay := hwritten.layout
    rw [hn', haddrs] at hlay
    have hstep := good_update (v.inode i) h ⟨hlive.1, hlive.2.1⟩ hlive.2.2 hlay (fun j hj => ?_)
      hkept
    · rw [hip]
      refine ⟨hstep.1, ?_⟩
      rw [hstep.2, ← hsplice, Nat.max_eq_left hend', haddrs]
      rfl
    · rw [hdinode j hj]
      split
      · rename_i heq
        rw [heq, h.synced i hlive.1 hlive.2.1]
      · rfl

/-- `ialloc` makes an empty file. -/
theorem good_create (hsb : sb.LaidOut) (h : v.Good sb) {type : UInt16} (htype : type ≠ 0)
    (ha : ialloc sb v.fs type = some (s, i)) :
    Good sb ⟨s, Function.update v.inode i (dinode sb s.disk i)⟩ ∧
      flatNext (v.contents sb) (.create i type) =
        some (contents sb ⟨s, Function.update v.inode i (dinode sb s.disk i)⟩) := by
  obtain ⟨hpos, hlt, hfree, rfl⟩ := ialloc_some ha
  have hdead : ¬ v.Live sb i := by
    rw [h.synced i hpos hlt] at hfree
    exact fun hlive => hlive.2.2 hfree
  have hinode : dinode sb (iupdate sb v.fs i (.fresh type)).disk i = .fresh type := by
    rw [dinode_iupdate, if_pos rfl]
  have hfile : v.files sb i = none := if_neg hdead
  have hcontents : v.contents sb i = none := if_neg hdead
  have hempty : setFile (v.files sb) i (fun _ => 0) (.of 0) i = some (fun _ => 0, .of 0) :=
    Function.update_self ..
  have hlay : Layout sb v.fs.disk (setFile (v.files sb) i (fun _ => 0) (.of 0)) := by
    refine layout_of_owns h.layout (owns_of_empty (.inl hfile) (.inr hempty) fun j hj => ?_)
      fun j addrs sh hj => ?_
    · exact Function.update_of_ne hj ..
    · by_cases hji : j = i
      · subst hji
        rw [hempty] at hj
        cases hj
        exact shaped_empty _
      · have hj' : v.files sb j = some (addrs, sh) := (Function.update_of_ne hji ..).symm.trans hj
        exact h.layout.shaped j addrs sh hj'
  have hshape : Shape.of (blocksOf (Dinode.fresh type).size.toNat) = .of 0 :=
    congrArg Shape.of (show blocksOf 0 = 0 by decide)
  rw [hinode]
  have hstep := good_update (.fresh type) h ⟨hpos, hlt⟩ htype
    (hshape ▸ layout_iupdate hsb hlay hlt (.fresh type)) (fun j _ => dinode_iupdate v.fs i j _)
    fun j _ hlivej k hk =>
      fileBlock_congr h.layout (iupdate_same hsb hlt v.fs _) (files_of_live hlivej) hk
  refine ⟨hstep.1, ?_⟩
  unfold flatNext
  dsimp only
  rw [if_pos hcontents, hstep.2]
  rfl

/-- Other fields of an inode are no business of its contents. -/
theorem good_meta (ip : Dinode) (hsb : sb.LaidOut) (h : v.Good sb) (hlive : v.Live sb i)
    (htype : ip.type = (v.inode i).type) (hsize : ip.size = (v.inode i).size)
    (haddrs : ip.addrs = (v.inode i).addrs) :
    Good sb ⟨iupdate sb v.fs i ip, Function.update v.inode i ip⟩ ∧
      contents sb ⟨iupdate sb v.fs i ip, Function.update v.inode i ip⟩ = v.contents sb := by
  have hfile := files_of_live hlive
  have hstep := good_update (s := iupdate sb v.fs i ip) ip h ⟨hlive.1, hlive.2.1⟩
    (htype ▸ hlive.2.2) (by
      rw [hsize, haddrs, setFile_self hfile]
      exact layout_iupdate hsb h.layout hlive.2.1 ip)
    (fun j _ => dinode_iupdate v.fs i j _)
    fun j _ hlivej k hk =>
      fileBlock_congr h.layout (iupdate_same hsb hlive.2.1 v.fs _) (files_of_live hlivej) hk
  refine ⟨hstep.1, ?_⟩
  have hbytes : fileBytes (iupdate sb v.fs i ip).disk (v.inode i).addrs (v.inode i).size.toNat =
      fileBytes v.fs.disk (v.inode i).addrs (v.inode i).size.toNat :=
    fileBytes_of_blocks fun k hk =>
      fileBlock_congr h.layout (iupdate_same hsb hlive.2.1 v.fs _) hfile hk
  rw [hstep.2, hsize, haddrs, hbytes, ← contents_of_live hlive, Function.update_eq_self]

/-- `iput` frees a file with all its blocks. -/
theorem good_free (hsb : sb.LaidOut) (h : v.Good sb) (hlive : v.Live sb i) {r : Fs × Dinode}
    (ht : itrunc sb v.fs i (v.inode i) = some r) :
    Good sb ⟨iupdate sb r.1 i { r.2 with type := 0 },
        Function.update v.inode i { r.2 with type := 0 }⟩ ∧
      flatNext (v.contents sb) (.free i) = some (contents sb
        ⟨iupdate sb r.1 i { r.2 with type := 0 },
          Function.update v.inode i { r.2 with type := 0 }⟩) := by
  obtain ⟨s₁, hs₁, hlay, hsame, -⟩ := itrunc_some h.layout (files_of_live hlive) i
  rw [hs₁] at ht
  cases ht
  dsimp only
  have hi := hlive.2.1
  have hlay' := layout_iupdate hsb (layout_iupdate hsb hlay hi
    { v.inode i with addrs := fun _ => 0, size := 0 }) hi
    { v.inode i with addrs := fun _ => 0, size := 0, type := 0 }
  generalize hs₂ : iupdate sb s₁ i { v.inode i with addrs := fun _ => 0, size := 0 } = s₂ at hlay'
  generalize hip : ({ v.inode i with addrs := fun _ => 0, size := 0, type := 0 } : Dinode) = ip at *
  have hdead : ∀ t : Fs, ¬ Live sb ⟨t, Function.update v.inode i ip⟩ i := by
    intro t hlive'
    rw [live_update_self ⟨hlive.1, hi⟩, ← hip] at hlive'
    exact hlive' rfl
  have hdata : ∀ c, sb.datastart ≤ c → (iupdate sb s₂ i ip).disk c = v.fs.disk c := by
    intro c hc
    rw [iupdate_same hsb hi _ _ c hc, ← hs₂, iupdate_same hsb hi _ _ c hc]
    exact hsame c (.inr hc)
  have hempty : setFile (v.files sb) i (fun _ => 0) (.of 0) i = some (fun _ => 0, .of 0) :=
    Function.update_self ..
  refine ⟨⟨?_, fun j hpos hlt => ?_⟩, ?_⟩
  · have hnone : files sb ⟨iupdate sb s₂ i ip, Function.update v.inode i ip⟩ i = none :=
      if_neg (hdead _)
    refine layout_of_owns hlay' (owns_of_empty (.inr hempty) (.inl hnone) fun j hj => ?_)
      fun j addrs sh hj => ?_
    · rw [files_update_of_ne hj]
      exact (Function.update_of_ne hj ..).symm
    · by_cases hji : j = i
      · subst hji
        rw [hnone] at hj
        cases hj
      · rw [files_update_of_ne hji] at hj
        exact hlay'.shaped j addrs sh ((Function.update_of_ne hji ..).trans hj)
  · refine (dinode_iupdate s₂ i j ip).trans (show _ = Function.update v.inode i ip j from ?_)
    by_cases hj : j = i
    · rw [if_pos hj, hj, Function.update_self]
    · rw [if_neg hj, Function.update_of_ne hj, ← hs₂, dinode_iupdate, if_neg hj,
        dinode_congr hsb (fun c hc => hsame c (.inl hc)) hlt, h.synced j hpos hlt]
  · unfold flatNext
    dsimp only
    rw [contents_of_live hlive, Option.map_some]
    congr 1
    funext j
    by_cases hj : j = i
    · rw [hj, Function.update_self]
      exact (if_neg (hdead _)).symm
    · rw [Function.update_of_ne hj, contents_update_of_ne hj]
      intro hlivej
      exact fileBytes_of_blocks fun k hk =>
        fileBlock_congr h.layout hdata (files_of_live hlivej) hk

/-- One step, on blocks and on byte lists. -/
theorem good_next (hsb : sb.LaidOut) {e : Event} (h : v.Good sb) (hnext : v.next sb e = some w) :
    w.Good sb ∧ flatNext (v.contents sb) e = some (w.contents sb) := by
  cases e with
  | write i off src =>
    simp only [next, Option.ite_none_right_eq_some, Option.map_eq_some_iff] at hnext
    obtain ⟨⟨hlive, -⟩, r, hr, rfl⟩ := hnext
    exact good_write hsb h hlive hr
  | create i type =>
    simp only [next, Option.bind_eq_some_iff, Option.ite_none_right_eq_some, Option.some.injEq]
      at hnext
    obtain ⟨⟨s, k⟩, hr, ⟨rfl, htype⟩, rfl⟩ := hnext
    exact good_create hsb h htype hr
  | update i major minor nlink =>
    simp only [next, Option.ite_none_right_eq_some, Option.some.injEq] at hnext
    obtain ⟨hlive, rfl⟩ := hnext
    obtain ⟨hgood, hcontents⟩ := good_meta
      { v.inode i with major := major, minor := minor, nlink := nlink } hsb h hlive rfl rfl rfl
    exact ⟨hgood, congrArg some hcontents.symm⟩
  | free i =>
    simp only [next, Option.ite_none_right_eq_some, Option.map_eq_some_iff] at hnext
    obtain ⟨hlive, r, hr, rfl⟩ := hnext
    exact good_free hsb h hlive hr

/-- `readi` returns the bytes, and does not change anything. -/
theorem readi_eq (h : v.Good sb) (hlive : v.Live sb i) (off : Nat) (hn : n < 2 ^ 32) :
    Fs.readi sb v.fs (v.inode i) off n = some (v.fs, v.inode i,
      P5.readi (fileBytes v.fs.disk (v.inode i).addrs (v.inode i).size.toNat) off n) := by
  have hfile := files_of_live hlive
  have hsize := size_le h hlive
  have hmax : maxFile * bsize < 2 ^ 32 := by decide
  generalize hlen : (v.inode i).size.toNat = len at *
  have hcond : ((len : Int) < off ∨ u32 ((off : Int) + n) < off) ↔
      (len < off ∨ (off + n) % 2 ^ 32 < off) := by
    unfold u32
    omega
  have hcond' : (len : Int) < u32 ((off : Int) + n) ↔ len < (off + n) % 2 ^ 32 := by
    unfold u32
    omega
  unfold Fs.readi P5.readi
  rw [hlen, length_fileBytes]
  by_cases hbad : len < off ∨ (off + n) % 2 ^ 32 < off
  · rw [if_pos hbad, if_pos (hcond.mpr hbad)]
  rw [if_neg hbad, if_neg (mt hcond.mp hbad)]
  rw [not_or] at hbad
  dsimp only
  -- the bytes that there are
  have hcount : (if (len : Int) < u32 ((off : Int) + n) then (len : Int) - off else n).toNat =
      if len < (off + n) % 2 ^ 32 then len - off else n := by
    by_cases hlong : len < (off + n) % 2 ^ 32
    · rw [if_pos hlong, if_pos (hcond'.mpr hlong)]
      omega
    · rw [if_neg hlong, if_neg (mt hcond'.mp hlong)]
      exact Int.toNat_natCast n
  rw [hcount, Int.toNat_natCast]
  generalize hk : (if len < (off + n) % 2 ^ 32 then len - off else n) = k
  have hend : off + k ≤ len := by
    rw [← hk]
    split
    · omega
    · omega
  have hblocks : off + k ≤ blocksOf len * bsize := by
    unfold blocksOf bsize
    omega
  rw [readLoop_eq h.layout hfile k off k (Nat.le_refl k) hblocks, Option.map_some]
  have hslice := Mem.slice_drop_take (fileByte v.fs.disk (v.inode i).addrs) 0 (a := off) (k := k)
    (n := len) hend
  unfold Mem.slice at hslice
  simp only [Nat.zero_add] at hslice
  rw [← hslice]
  rfl

/-! ## A new volume -/

/-- The metadata is marked, and there are no files. -/
def blankDisk (sb : Superblock) : Nat → Block :=
  (List.range sb.datastart).foldl
    (fun disk b => Function.update disk (sb.bblock b) ((disk (sb.bblock b)).setBit (b % bpb)))
    fun _ => .zero

def blank (sb : Superblock) : Volume := ⟨⟨blankDisk sb, []⟩, fun _ => .fresh 0⟩

theorem used_marks (bs : List Nat) : ∀ (disk : Nat → Block) (c : Nat),
    used sb (bs.foldl (fun disk b =>
      Function.update disk (sb.bblock b) ((disk (sb.bblock b)).setBit (b % bpb))) disk) c =
      (decide (c ∈ bs) || used sb disk c) := by
  induction bs with
  | nil =>
    intro disk c
    rw [List.foldl_nil, decide_eq_false List.not_mem_nil, Bool.false_or]
  | cons b bs ih =>
    intro disk c
    have hstep := used_update sb disk b ((disk (sb.bblock b)).setBit (b % bpb))
      (fun j hj hjb => by rw [Block.bit_setBit hj, if_neg hjb]) c
    rw [List.foldl_cons, ih, hstep, Block.bit_setBit (mod_bpb_lt b), if_pos rfl]
    by_cases hc : c = b
    · simp [hc]
    · simp [hc]

theorem disk_marks (bs : List Nat) {c : Nat} (hc : c < sb.bmapstart) : ∀ disk : Nat → Block,
    bs.foldl (fun disk b =>
      Function.update disk (sb.bblock b) ((disk (sb.bblock b)).setBit (b % bpb))) disk c =
      disk c := by
  induction bs with
  | nil => exact fun _ => rfl
  | cons b bs ih =>
    intro disk
    have hge : sb.bmapstart ≤ sb.bblock b := Nat.le_add_left _ _
    rw [List.foldl_cons, ih, Function.update_of_ne (by omega)]

theorem mem_zero : Block.zero.mem = fun _ => 0 := by
  funext o
  unfold Block.mem Block.zero
  rw [dite_eq_ite, ite_self]

theorem bit_zero (k : Nat) : Block.zero.bit k = false := by
  unfold Block.bit Mem.bit
  rw [mem_zero, UInt8.zero_and, bne_self_eq_false]

theorem used_blank (b : Nat) : used sb (blankDisk sb) b = decide (b < sb.datastart) := by
  unfold blankDisk
  rw [used_marks, show used sb (fun _ => Block.zero) b = false from bit_zero _, Bool.or_false]
  simp only [List.mem_range]

theorem files_blank (sb : Superblock) (i : Nat) : (blank sb).files sb i = none :=
  if_neg fun hlive => hlive.2.2 rfl

theorem good_blank (hsb : sb.LaidOut) : (blank sb).Good sb where
  layout := by
    refine ⟨fun b hb => (used_blank b).trans (decide_eq_true hb), ⟨?_, ?_, ?_, ?_⟩, ?_⟩
    · rintro p b ⟨addrs, sh, hfile, -⟩
      rw [files_blank] at hfile
      cases hfile
    · rintro p q b ⟨addrs, sh, hfile, -⟩ -
      rw [files_blank] at hfile
      cases hfile
    · rintro p b c ⟨addrs, sh, hfile, -⟩ -
      rw [files_blank] at hfile
      cases hfile
    · rintro b ⟨hge, -, hused⟩
      have hlt := of_decide_eq_true ((used_blank b).symm.trans hused)
      exact absurd hge (Nat.not_le_of_lt hlt)
    · intro i addrs sh hfile
      rw [files_blank] at hfile
      cases hfile
  synced := by
    intro i _ hi
    have hblock : (blank sb).fs.disk (sb.iblock i) = .zero :=
      disk_marks _ (iblock_lt hsb hi).2 _
    unfold dinode
    rw [hblock, mem_zero]
    unfold Dinode.ofMem Mem.u16 Mem.u32 Mem.slice
    rfl

/-! ## Runs -/

theorem good_run (hsb : sb.LaidOut) (h : v.Good sb) {es : List Event}
    (run : Run (stepOf (next sb)) v es w) : w.Good sb :=
  run.invariant (fun v => v.Good sb) h fun _ _ _ hgood hstep => (good_next hsb hgood hstep).1

/-- In every run the file system does what the table of byte lists does, and reading gives the
bytes of that table. -/
theorem refines_flat (hsb : sb.LaidOut) (h : v.Good sb) {es : List Event}
    (run : Run (stepOf (next sb)) v es w) :
    Run (stepOf flatNext) (v.contents sb) es (w.contents sb) ∧
      ∀ i data, w.contents sb i = some data → ∀ off n, n < 2 ^ 32 →
        Fs.readi sb w.fs (w.inode i) off n = some (w.fs, w.inode i, P5.readi data off n) := by
  refine ⟨?_, fun i data hdata off n hn => ?_⟩
  · induction run with
    | nil => exact .nil
    | snoc before hstep ih => exact .snoc ih (good_next hsb (good_run hsb h before) hstep).2
  · have hlive : w.Live sb i := by
      refine Classical.byContradiction fun hdead => ?_
      rw [show w.contents sb i = none from if_neg hdead] at hdata
      cases hdata
    rw [contents_of_live hlive] at hdata
    cases hdata
    exact readi_eq (good_run hsb h run) hlive off hn

/-- A volume of 32 blocks and 8 inodes. -/
def small : Superblock := ⟨32, 20, 8, 4, 2, 6, 8⟩

theorem laidOut_small : small.LaidOut := ⟨by decide, by decide, by decide⟩

/-- Two files, one of which is freed. -/
theorem refines_flat_small : ∃ w, runOf (next small) (blank small)
      [.create 1 2, .write 1 0 [5, 6, 7], .create 2 2, .write 2 0 [8], .write 1 2 [9, 9], .free 2] =
        some w ∧
    Run (stepOf flatNext) ((blank small).contents small)
      [.create 1 2, .write 1 0 [5, 6, 7], .create 2 2, .write 2 0 [8], .write 1 2 [9, 9], .free 2]
      (w.contents small) ∧
    ∀ i data, w.contents small i = some data → ∀ off n, n < 2 ^ 32 →
      Fs.readi small w.fs (w.inode i) off n = some (w.fs, w.inode i, P5.readi data off n) := by
  obtain ⟨w, hw⟩ := Option.isSome_iff_exists.mp (show (runOf (next small) (blank small)
    [.create 1 2, .write 1 0 [5, 6, 7], .create 2 2, .write 2 0 [8], .write 1 2 [9, 9],
      .free 2]).isSome = true by decide +kernel)
  exact ⟨w, hw, refines_flat laidOut_small (good_blank laidOut_small) (run_of_runOf hw)⟩

/-- In every run the bitmap marks a block behind the metadata just if some place of some file has
it, no block is in two places, and the inodes in memory are those on the disk. -/
theorem bitmap_exact (hsb : sb.LaidOut) (h : v.Good sb) {es : List Event}
    (run : Run (stepOf (next sb)) v es w) :
    (∀ b, sb.datastart ≤ b → b < sb.size →
      (used sb w.fs.disk b = true ↔ ∃ p, Owns w.fs.disk (w.files sb) p b)) ∧
    (∀ p b, Owns w.fs.disk (w.files sb) p b → sb.datastart ≤ b ∧ b < sb.size) ∧
    (∀ p q b, Owns w.fs.disk (w.files sb) p b → Owns w.fs.disk (w.files sb) q b → p = q) ∧
    ∀ i, 0 < i → i < sb.ninodes → dinode sb w.fs.disk i = w.inode i := by
  have hgood := good_run hsb h run
  have hexact := hgood.layout.exact
  refine ⟨fun b hge hlt => ⟨fun hused => hexact.owner ⟨hge, hlt, hused⟩, ?_⟩, fun p b hown => ?_,
    fun p q b hp hq => hexact.place hp hq, hgood.synced⟩
  · rintro ⟨p, hp⟩
    exact (hexact.sound hp).2.2
  · have hmarked := hexact.sound hown
    exact ⟨hmarked.1, hmarked.2.1⟩

theorem bitmap_exact_small : ∃ w, runOf (next small) (blank small)
      [.create 1 2, .write 1 0 [5, 6, 7], .create 2 2, .write 2 0 [8], .free 1] = some w ∧
    (∀ b, small.datastart ≤ b → b < small.size →
      (used small w.fs.disk b = true ↔ ∃ p, Owns w.fs.disk (w.files small) p b)) ∧
    (∀ p b, Owns w.fs.disk (w.files small) p b → small.datastart ≤ b ∧ b < small.size) ∧
    (∀ p q b, Owns w.fs.disk (w.files small) p b → Owns w.fs.disk (w.files small) q b → p = q) ∧
    ∀ i, 0 < i → i < small.ninodes → dinode small w.fs.disk i = w.inode i := by
  obtain ⟨w, hw⟩ := Option.isSome_iff_exists.mp (show (runOf (next small) (blank small)
    [.create 1 2, .write 1 0 [5, 6, 7], .create 2 2, .write 2 0 [8], .free 1]).isSome = true by
      decide +kernel)
  exact ⟨w, hw, bitmap_exact laidOut_small (good_blank laidOut_small) (run_of_runOf hw)⟩

end Volume

end Cs537.P5
