import Cs537.Lib.Run
import Cs537.P7.Dentry

/-!
# The log stays well formed

From the image that `mkfs.wfs` writes, whatever sequence of `wfs_mknod`, `wfs_mkdir` and
`wfs_write` calls one mount executes: the log can be walked up to `wp->head`, each inode
number has exactly one entry that is not deleted and that is its last, directories consist of
whole directory entries, and these name inodes that exist.
-/

namespace Cs537.P7

open Cs537.Lib

/-- `S_ISDIR` of the mode of an inode. -/
def Inode.IsDir (i : Inode) : Prop := i.mode &&& sIfmt = sIfdir

instance (i : Inode) : Decidable i.IsDir := inferInstanceAs (Decidable (_ = _))

/-- `S_ISREG` of the mode of an inode. -/
def Inode.IsReg (i : Inode) : Prop := i.mode &&& sIfmt = sIfreg

instance (i : Inode) : Decidable i.IsReg := inferInstanceAs (Decidable (_ = _))

/-- What the data of a live directory has to be, among the entries `es`. -/
structure DirOk (es : List Entry) (e : Entry) : Prop where
  size_dvd : sizeofDentry ∣ e.inode.size.toNat
  named : ∀ i < e.inode.size.toNat / sizeofDentry, ∃ x ∈ es, x.number = dentryNumber e.data i

/-- Directories stay in order when entries are superseded and appended: no number is lost. -/
theorem DirOk.mono {es es' : List Entry} {e : Entry} (h : DirOk es e)
    (hsub : ∀ x ∈ es, ∃ y ∈ es', y.number = x.number) : DirOk es' e := by
  refine ⟨h.size_dvd, ?_⟩
  intro i hi
  obtain ⟨x, hx, hnumber⟩ := h.named i hi
  obtain ⟨y, hy, heq⟩ := hsub x hx
  exact ⟨y, hy, heq.trans hnumber⟩

/-- A directory that got a further entry with an existing number. -/
theorem DirOk.grow {es : List Entry} {e e' : Entry} {num : UInt32} {d : Bytes} (h : DirOk es e)
    (hdata : e'.data = e.data ++ d) (hd : d.length = sizeofDentry)
    (hnum : (d.drop maxFileNameLen).take 4 = le32 num) (hmem : ∃ x ∈ es, x.number = num) :
    DirOk es e' := by
  obtain ⟨k, hk⟩ := h.size_dvd
  have hsize : e'.inode.size.toNat = sizeofDentry * (k + 1) := by
    rw [← e'.fits, hdata, List.length_append, e.fits, hk, hd, Nat.mul_succ]
  have hs : sizeofDentry = 40 := rfl
  refine ⟨⟨k + 1, hsize⟩, ?_⟩
  intro i hi
  rw [hsize, Nat.mul_div_cancel_left _ (by decide)] at hi
  rw [hdata]
  by_cases hlt : i < k
  · rw [dentryNumber_append_left (by rw [e.fits, hk, hs]; omega)]
    apply h.named
    rw [hk, Nat.mul_div_cancel_left _ (by decide)]
    exact hlt
  · have hik : i = k := by omega
    subst hik
    rw [dentryNumber_append_right (e.fits.trans hk), dentryNumber_eq hnum]
    exact hmem

namespace Wfs

variable {w w' : Wfs} {es : List Entry} {o : Nat}

/-- The log is well formed: walking it from byte 8 lands on `wp->head`, each inode number in it
has exactly one entry that is not deleted, the last one with that number and the one that
`number_to_inode` returns, the size of a live directory is a multiple of 40, and each
directory entry in a live directory names an inode with a live entry. -/
def LogWellFormed (w : Wfs) : Prop :=
  ∃ es, LogIs w.disk sizeofSb es w.head.toNat ∧
    (∀ n, (∃ e ∈ es, e.number = n) → ∃ pre e post, es = pre ++ e :: post ∧ e.number = n ∧
      e.Live ∧ (∀ x ∈ pre ++ post, x.number = n → ¬ x.Live) ∧ (∀ x ∈ post, x.number ≠ n) ∧
      w.numberToInode n = some (sizeofSb + logLength pre)) ∧
    (∀ e ∈ es, e.Live → e.inode.IsDir → sizeofDentry ∣ e.inode.size.toNat) ∧
    ∀ e ∈ es, e.Live → e.inode.IsDir → ∀ i < e.inode.size.toNat / sizeofDentry,
      ∃ x ∈ es, x.number = dentryNumber e.data i ∧ x.Live

/-- Another `n` bytes of log fit on the disk, and `wp->head` can point behind them. -/
def Fits (w : Wfs) (n : Nat) : Prop := w.head.toNat + n ≤ w.len ∧ w.head.toNat + n < 2 ^ 32

instance (w : Wfs) (n : Nat) : Decidable (w.Fits n) := inferInstanceAs (Decidable (_ ∧ _))

/-- The calls that are made: the parent path resolves to a directory, a written path to a
regular file, a new name has 1 to 31 bytes, an offset is between 0 and 8, and the appended
bytes fit on the disk. On a disk of less than `2 ^ 32` bytes the last means just that. -/
def Admissible (w : Wfs) : Call → Prop
  | .mknod path _ _ | .mkdir path _ _ =>
    ∃ o, w.pathToInode (dirname (cstr path)) = some (some o) ∧ (inodeAt w.disk o).IsDir ∧
      1 ≤ (basename (cstr path)).length ∧ (basename (cstr path)).length ≤ 31 ∧
      w.Fits (w.parentLength o + sizeofInode)
  | .write path _ size offset _ =>
    ∃ o, w.pathToInode path = some (some o) ∧ (inodeAt w.disk o).IsReg ∧
      0 ≤ offset ∧ offset ≤ 8 ∧ w.Fits (sizeofInode + writeSize size offset)

/-- The invariant of the runs. -/
structure Inv (w : Wfs) (es : List Entry) : Prop where
  holds : w.Holds es
  live : LiveIffLast Entry.number Entry.Live es
  dirs : ∀ e ∈ es, e.Live → e.inode.IsDir → DirOk es e
  numbers : ∀ e ∈ es, e.number.toNat ≤ w.curInodeNum.toNat
  count : w.curInodeNum.toNat ≤ 100 + es.length
  head_le : w.head.toNat ≤ w.len
  len_le : w.len ≤ w.mapped

theorem Inv.logWellFormed (h : w.Inv es) : w.LogWellFormed := by
  refine ⟨es, h.holds, ?_, ?_, ?_⟩
  · rintro n ⟨x, hx, hn⟩
    rcases isLast_or_notMem Entry.number es n with hnone | ⟨pre, e, post, hlast⟩
    · exact absurd hn (hnone x hx)
    · have hlive := h.live.live hlast
      have hfind := numberToInode_of_isLast h.holds hlast
      rw [if_pos hlive] at hfind
      exact ⟨pre, e, post, hlast.split, hlast.key_eq, hlive,
        fun y hy hkey => h.live.dead hlast hy hkey, hlast.after, hfind⟩
  · intro e he hlive hdir
    exact (h.dirs e he hlive hdir).size_dvd
  · intro e he hlive hdir i hi
    obtain ⟨x, hx, hnumber⟩ := (h.dirs e he hlive hdir).named i hi
    rcases isLast_or_notMem Entry.number es x.number with hnone | ⟨pre, y, post, hlast⟩
    · exact absurd rfl (hnone x hx)
    · exact ⟨y, hlast.mem, hlast.key_eq.trans hnumber, h.live.live hlast⟩

variable {pre post : List Entry} {e e' : Entry}

/-- The numbers of a log in which an entry was superseded. -/
theorem exists_number_of_supersede (hsplit : es = pre ++ e :: post) (more : List Entry) :
    ∀ x ∈ es, ∃ y ∈ pre ++ e.marked :: post ++ e' :: more, y.number = x.number := by
  subst hsplit
  intro x hx
  simp only [List.mem_append, List.mem_cons] at hx
  rcases hx with hx | rfl | hx
  · exact ⟨x, by simp [hx], rfl⟩
  · exact ⟨x.marked, by simp, rfl⟩
  · exact ⟨x, by simp [hx], rfl⟩

/-- Directories after an entry was superseded: only the new entries need care. -/
theorem Inv.dirs_supersede (h : w.Inv es) (hf : Found es o pre e post) {more : List Entry}
    (hnew : ∀ x ∈ e' :: more, x.Live → x.inode.IsDir →
      DirOk (pre ++ e.marked :: post ++ e' :: more) x) :
    ∀ x ∈ pre ++ e.marked :: post ++ e' :: more, x.Live → x.inode.IsDir →
      DirOk (pre ++ e.marked :: post ++ e' :: more) x := by
  intro x hx hlive hdir
  rcases hf.mem_superseded hx with hold | rfl | hmore
  · exact (h.dirs x hold hlive hdir).mono (exists_number_of_supersede hf.last.split more)
  · exact absurd hlive (Entry.not_live_marked e)
  · exact hnew x hmore hlive hdir

/-- Superseding an entry leaves each number with one live entry. -/
theorem Inv.live_supersede (h : w.Inv es) (hf : Found es o pre e post)
    (hnumber : e'.number = e.number) (hlive : e'.Live) :
    LiveIffLast Entry.number Entry.Live (pre ++ e.marked :: post ++ [e']) :=
  LiveIffLast.supersede (hf.last.split ▸ h.live) hf.live e.marked_number e.not_live_marked
    hnumber hlive

/-- Superseding an entry brings no new number. -/
theorem Inv.numbers_supersede (h : w.Inv es) (hf : Found es o pre e post)
    (hnumber : e'.number = e.number) :
    ∀ x ∈ pre ++ e.marked :: post ++ [e'], x.number.toNat ≤ w.curInodeNum.toNat := by
  intro x hx
  have hmem : e ∈ es := hf.last.mem
  rcases hf.mem_superseded hx with hold | rfl | hmore
  · exact h.numbers x hold
  · exact h.numbers e hmem
  · rw [List.mem_singleton.mp hmore, hnumber]
    exact h.numbers e hmem

/-- A further inode number is not in use. -/
theorem Inv.succ_toNat (h : w.Inv es) :
    (w.curInodeNum + 1).toNat = w.curInodeNum.toNat + 1 := by
  have hhead := w.head.toNat_lt
  have hlog := LogIs.length_le h.holds
  have hcount := h.count
  have hs : sizeofInode = 44 := rfl
  rw [hs] at hlog
  rw [UInt32.toNat_add, show (1 : UInt32).toNat = 1 from rfl, Nat.mod_eq_of_lt]
  omega

/-- The entry of a new inode is the only one of its number. -/
theorem Inv.live_made (h : w.Inv es) (hf : Found es o pre e post) (hnumber : e'.number = e.number)
    (hlive : e'.Live) (mode : UInt32) (env : Env) :
    LiveIffLast Entry.number Entry.Live
      (pre ++ e.marked :: post ++ [e', nodeEntry (w.curInodeNum + 1) mode env]) := by
  rw [List.append_cons]
  have hnew : (nodeEntry (w.curInodeNum + 1) mode env).Live := rfl
  apply (h.live_supersede hf hnumber hlive).snoc hnew
  intro x hx heq
  have hle := h.numbers_supersede hf hnumber x hx
  have hnode : (nodeEntry (w.curInodeNum + 1) mode env).number.toNat = w.curInodeNum.toNat + 1 :=
    h.succ_toNat
  rw [heq] at hle
  omega

/-- A directory with a further entry for the new inode, and the new inode, are in order. -/
theorem Inv.dirs_made (h : w.Inv es) (hf : Found es o pre e post) (hdir : e.inode.IsDir)
    {heap : Mem} {name : Bytes} (hname : name.length ≤ 31)
    (hdata : e'.data = e.data ++ newDentry heap e.inode e.data (w.curInodeNum + 1) name)
    (mode : UInt32) (env : Env) :
    ∀ x ∈ pre ++ e.marked :: post ++ [e', nodeEntry (w.curInodeNum + 1) mode env],
      x.Live → x.inode.IsDir →
        DirOk (pre ++ e.marked :: post ++ [e', nodeEntry (w.curInodeNum + 1) mode env]) x := by
  apply h.dirs_supersede hf
  intro x hx _ _
  rw [List.mem_cons, List.mem_singleton] at hx
  rcases hx with rfl | rfl
  · have hparent : DirOk es e := h.dirs e hf.last.mem hf.live hdir
    apply (hparent.mono (exists_number_of_supersede hf.last.split _)).grow hdata
      (length_newDentry _ _ _ _ _)
      (newDentry_number heap e.inode e.data (w.curInodeNum + 1) _
        (by unfold maxFileNameLen; omega))
    exact ⟨nodeEntry (w.curInodeNum + 1) mode env, by simp, rfl⟩
  · exact ⟨dvd_zero _, fun i hi => absurd hi (by simp [nodeEntry, newNode])⟩

/-- `wfs_mknod` and `wfs_mkdir` keep the invariant. -/
theorem Inv.made (h : w.Inv es) (kind : UInt32) (path : Bytes) (mode : UInt32) (env : Env)
    (hpath : w.pathToInode (dirname (cstr path)) = some (some o))
    (hdir : (inodeAt w.disk o).IsDir) (hname : (basename (cstr path)).length ≤ 31)
    (hfits : w.Fits (w.parentLength o + sizeofInode)) :
    makeNode kind w path mode env = some (0, made kind w o path mode env) ∧
      ∃ pre e post e', Found es o pre e post ∧
        e'.inode = { newParentInode e.inode with
          size := UInt32.ofNat (e.inode.size.toNat + sizeofDentry) } ∧
        e'.data = e.data ++
          newDentry env.heap e.inode e.data (w.curInodeNum + 1) (basename (cstr path)) ∧
        (made kind w o path mode env).Inv
          (pre ++ e.marked :: post ++
            [e', nodeEntry (w.curInodeNum + 1) (kind ||| mode) env]) := by
  obtain ⟨pre, e, post, hf⟩ := h.holds.found hpath
  obtain ⟨hroom, hwrap⟩ := hfits
  have hmapped := h.len_le
  constructor
  · rw [makeNode_eq kind path mode env hpath (h.holds.below_head hf) (by omega), if_pos]
    exact ⟨by unfold sizeofDentry; omega, by omega⟩
  · obtain ⟨e', hinode, hdata, hholds⟩ := h.holds.made hf kind path mode env (by omega)
    have hsucc := h.succ_toNat
    have hsplit := hf.last.split
    obtain ⟨hnumber, hlive⟩ := number_live_of_newParent hinode
    rw [h.holds.inodeAt_eq hf] at hdir
    refine ⟨pre, e, post, e', hf, hinode, hdata, hholds, h.live_made hf hnumber hlive _ env,
      h.dirs_made hf hdir hname hdata _ env, ?_, ?_, ?_, hmapped⟩
    · intro x hx
      rw [List.append_cons, List.mem_append, List.mem_singleton] at hx
      have hcur : (Wfs.made kind w o path mode env).curInodeNum.toNat =
          w.curInodeNum.toNat + 1 := hsucc
      rw [hcur]
      rcases hx with hx | rfl
      · have := h.numbers_supersede hf hnumber x hx
        omega
      · exact hsucc.le
    · have hcount := h.count
      have hcur : (Wfs.made kind w o path mode env).curInodeNum.toNat =
          w.curInodeNum.toNat + 1 := hsucc
      rw [hcur]
      rw [hsplit] at hcount
      simp only [List.length_append, List.length_cons] at hcount ⊢
      omega
    · show (UInt32.ofNat (w.head.toNat + w.parentLength o + sizeofInode)).toNat ≤ w.len
      rw [toNat_ofNat_of_lt (by omega)]
      omega

/-- `wfs_write` keeps the invariant. -/
theorem Inv.written (h : w.Inv es) {path : Bytes} (buffer : Int → UInt8) (size : Nat)
    (offset : Int) (env : Env) (hpath : w.pathToInode path = some (some o))
    (hreg : (inodeAt w.disk o).IsReg)
    (hfits : w.Fits (sizeofInode + writeSize size offset)) :
    (∃ r, w.wfsWrite path buffer size offset env =
      some (r, w.written o buffer size offset env)) ∧
      ∃ es', (w.written o buffer size offset env).Inv es' := by
  obtain ⟨pre, e, post, hf⟩ := h.holds.found hpath
  obtain ⟨hroom, hwrap⟩ := hfits
  have hmapped := h.len_le
  constructor
  · rw [wfsWrite_eq buffer size offset env hpath (h.holds.below_head hf) (by omega),
      if_pos (by omega)]
    exact ⟨_, rfl⟩
  · obtain ⟨e', hinode, -, hholds⟩ := h.holds.written hf buffer size offset env (by omega)
    have hsplit := hf.last.split
    obtain ⟨hnumber, hlive⟩ := number_live_of_written hinode
    refine ⟨_, hholds, h.live_supersede hf hnumber hlive, ?_, h.numbers_supersede hf hnumber, ?_, ?_,
      hmapped⟩
    · apply h.dirs_supersede hf
      intro x hx _ hdir
      rw [List.mem_singleton] at hx
      subst hx
      -- the written file keeps its mode, which is that of a regular file
      rw [h.holds.inodeAt_eq hf] at hreg
      have hmode : x.inode.mode = e.inode.mode := by rw [hinode]; rfl
      unfold Inode.IsDir at hdir
      rw [hmode, hreg] at hdir
      exact absurd hdir (by decide)
    · have hcount := h.count
      show w.curInodeNum.toNat ≤ _
      rw [hsplit] at hcount
      simp only [List.length_append, List.length_cons] at hcount ⊢
      omega
    · show (UInt32.ofNat (w.head.toNat + (sizeofInode + writeSize size offset))).toNat ≤ w.len
      rw [toNat_ofNat_of_lt (by omega)]
      omega

/-! ## Runs -/

theorem rootInode_size (env : Env) : 0 = (rootInode env).size.toNat := rfl

/-- The log of a fresh image. -/
def rootEntry (env : Env) : Entry where
  inode := rootInode env
  data := []
  fits := rootInode_size env

/-- What mounting a fresh image gives. -/
theorem mount_mkfs {image : Image} {env : Env} (hlen : sizeofSb + sizeofInode ≤ image.len)
    (hmount : mount (mkfs image env) = some w) :
    w.Holds [rootEntry env] ∧ w.len = image.len ∧ w.len ≤ w.mapped ∧ w.curInodeNum = 100 := by
  have hs : sizeofSb = 8 := rfl
  have hi : sizeofInode = 44 := rfl
  simp only [mount] at hmount
  split at hmount
  · cases hmount
  · cases hmount
    refine ⟨?_, rfl, ?_, rfl⟩
    · have hdisk {a : Nat} (ha : a < image.len) :
          (if a < (mkfs image env).len then (mkfs image env).bytes a else 0) =
            (mkfs image env).bytes a := if_pos ha
      have hhead : Mem.u32 (fun a => if a < (mkfs image env).len then (mkfs image env).bytes a
          else 0) 4 = UInt32.ofNat (sizeofSb + sizeofInode) := by
        apply Mem.u32_of_slice
        rw [Mem.slice_congr (fun i h => hdisk (by omega)), mkfs,
          Mem.slice_write_of_disjoint (by omega)]
        exact Mem.slice_write_inside (o := 0) (a := 4) (by simp)
      show LogIs _ sizeofSb [rootEntry env] (Mem.u32 _ 4).toNat
      rw [hhead]
      refine ⟨?_, rfl⟩
      apply entryAt_of_slice
      have hbytes : (rootEntry env).bytes = (rootInode env).bytes := List.append_nil _
      rw [hbytes, Mem.slice_congr (fun i h => hdisk (by
        have hl : (rootEntry env).length = 44 := rfl
        omega))]
      exact Mem.slice_write_self _ sizeofSb (rootInode env).bytes
    · show image.len ≤ (image.len + 4095) / 4096 * 4096
      omega

theorem Inv.init {image : Image} {env : Env} (hlen : sizeofSb + sizeofInode ≤ image.len)
    (hmount : mount (mkfs image env) = some w) : w.Inv [rootEntry env] := by
  obtain ⟨hholds, hlen', hmapped, hcur⟩ := mount_mkfs hlen hmount
  have hhead := hholds.head_eq
  refine ⟨hholds, ?_, ?_, ?_, ?_, ?_, hmapped⟩
  · exact ⟨iff_of_true rfl (by simp), trivial⟩
  · intro e he _ _
    rw [List.mem_singleton] at he
    subst he
    exact ⟨dvd_zero _, fun i hi => absurd hi (by simp [rootEntry, rootInode])⟩
  · intro e he
    rw [List.mem_singleton] at he
    subst he
    exact Nat.zero_le _
  · rw [hcur]
    show 100 ≤ 100 + 1
    omega
  · rw [hhead, hlen']
    exact hlen

/-- An admissible call returns, and it keeps the invariant. -/
theorem Inv.exec (h : w.Inv es) {c : Call} (hc : w.Admissible c) :
    ∃ r w', w.exec c = some (r, w') ∧ ∃ es', w'.Inv es' := by
  cases c with
  | mknod path mode env =>
    obtain ⟨o, hpath, hdir, -, hname, hfits⟩ := hc
    obtain ⟨hmade, _, _, _, _, -, -, -, hinv⟩ :=
      h.made sIfreg path mode env hpath hdir hname hfits
    exact ⟨0, _, hmade, _, hinv⟩
  | mkdir path mode env =>
    obtain ⟨o, hpath, hdir, -, hname, hfits⟩ := hc
    obtain ⟨hmade, _, _, _, _, -, -, -, hinv⟩ :=
      h.made sIfdir path mode env hpath hdir hname hfits
    exact ⟨0, _, hmade, _, hinv⟩
  | write path buffer size offset env =>
    obtain ⟨o, hpath, hreg, -, -, hfits⟩ := hc
    obtain ⟨⟨r, hwritten⟩, hinv⟩ := h.written buffer size offset env hpath hreg hfits
    exact ⟨r, _, hwritten, hinv⟩

theorem Inv.next (h : w.Inv es) {c : Call} (hc : w.Admissible c)
    (hnext : w.next c = some w') : ∃ es', w'.Inv es' := by
  obtain ⟨r, u, hexec, hinv⟩ := h.exec hc
  simp only [Wfs.next, hexec, Option.map_some, Option.some.injEq] at hnext
  exact hnext ▸ hinv

/-- From a fresh image, every sequence of admissible calls leaves a well-formed log after every
call, and no admissible call kills the process. -/
theorem log_wellFormed {image : Image} {env : Env} {w₀ : Wfs} {cs : List Call}
    (hlen : sizeofSb + sizeofInode ≤ image.len)
    (hmount : mount (mkfs image env) = some w₀)
    (run : Run (guarded Admissible (stepOf next)) w₀ cs w) :
    w.LogWellFormed ∧ ∀ c, w.Admissible c → ∃ r w', w.exec c = some (r, w') := by
  have hinv : ∃ es, w.Inv es := by
    apply run.invariant (fun u => ∃ es, u.Inv es) ⟨_, Inv.init hlen hmount⟩
    rintro t c u ⟨es, ht⟩ ⟨hc, hstep⟩
    exact ht.next hc hstep
  obtain ⟨es, h⟩ := hinv
  refine ⟨h.logWellFormed, ?_⟩
  intro c hc
  obtain ⟨r, w', hexec, -⟩ := h.exec hc
  exact ⟨r, w', hexec⟩

/-- One page of zeros. -/
def onePage : Image where
  bytes := fun _ => 0
  len := 4096

/-- A call by user 0 at time 0, fresh memory being zero. -/
def quietEnv : Env := ⟨0, 0, 0, 0, 0, fun _ => 0⟩

/-- The theorem at one page and one call of `wfs_mknod("/a")`. -/
theorem log_wellFormed_one_file :
    ∃ w₀ w, mount (mkfs onePage quietEnv) = some w₀ ∧
      Run (guarded Admissible (stepOf next)) w₀ [.mknod [slash, 97] 0 quietEnv] w ∧
      w.LogWellFormed := by
  have hobs : (mount (mkfs onePage quietEnv)).map (fun w =>
      (w.pathToInode (dirname (cstr [slash, 97])), decide (inodeAt w.disk 8).IsDir,
        decide (w.Fits (w.parentLength 8 + sizeofInode)))) =
      some (some (some 8), true, true) := by decide +kernel
  obtain ⟨w₀, hmount, hfacts⟩ := Option.map_eq_some_iff.mp hobs
  simp only [Prod.mk.injEq, decide_eq_true_eq] at hfacts
  obtain ⟨hpath, hdir, hfits⟩ := hfacts
  have hcall : w₀.Admissible (.mknod [slash, 97] 0 quietEnv) :=
    ⟨8, hpath, hdir, by decide, by decide, hfits⟩
  have hstart := log_wellFormed (by decide) hmount Run.nil
  obtain ⟨r, w, hexec⟩ := hstart.2 _ hcall
  have hrun : Run (guarded Admissible (stepOf next)) w₀ [.mknod [slash, 97] 0 quietEnv] w :=
    Run.snoc Run.nil ⟨hcall, by simp [stepOf, next, hexec]⟩
  exact ⟨w₀, w, hmount, hrun, (log_wellFormed (by decide) hmount hrun).1⟩

end Wfs

end Cs537.P7
