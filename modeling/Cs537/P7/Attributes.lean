import Cs537.P7.Fresh
import Cs537.P7.Resolving

/-!
# Attributes of a directory

`wfs_mknod` and `wfs_mkdir` write a new entry for the parent and name its fields one by one. They
leave out `mtime`, which becomes zero: the first creation in a directory loses its modification
time. The other attributes are kept, and those of other paths as well, as long as no other path
leads to the parent.
-/

namespace Cs537.P7

open Cs537.Lib

namespace Wfs

variable {w w' : Wfs} {es : List Entry} {o : Nat}

/-! ## Numbers in one mount -/

/-- The numbers in a sound log are used up to `cur_inode_num`, which has grown by at most one for
each entry. -/
structure Numbered (w : Wfs) (es : List Entry) : Prop where
  sound : w.Sound es
  number_le : ∀ e ∈ es, e.number.toNat ≤ w.curInodeNum.toNat
  cur_le : w.curInodeNum.toNat ≤ 100 + es.length

/-- `cur_inode_num` does not overflow. -/
theorem Numbered.succ_toNat (h : w.Numbered es) :
    (w.curInodeNum + 1).toNat = w.curInodeNum.toNat + 1 := by
  have hlength := LogIs.length_le h.sound.holds
  have hhead := w.head.toNat_lt
  have hcur := h.cur_le
  rw [sizeofInode] at hlength
  rw [UInt32.toNat_add]
  show (w.curInodeNum.toNat + 1) % 2 ^ 32 = _
  omega

/-- The next number is not in the log. -/
theorem Numbered.fresh (h : w.Numbered es) : ∀ e ∈ es, e.number ≠ w.curInodeNum + 1 := by
  intro e he heq
  have hle := h.number_le e he
  rw [heq, h.succ_toNat] at hle
  omega

theorem Numbered.init {image : Image} {env : Env} (hlen : sizeofSb + sizeofInode ≤ image.len)
    (hmount : mount (mkfs image env) = some w) : w.Numbered [rootEntry env] := by
  obtain ⟨-, -, -, -, -, hcur⟩ := mount_eq_some hmount
  refine ⟨Sound.init hlen hmount, ?_, ?_⟩
  · intro e he
    rw [List.mem_singleton] at he
    subst he
    exact Nat.zero_le _
  · rw [hcur]
    exact Nat.le_succ 100

section Calls

variable {path : Bytes} {env : Env} {pre post : List Entry} {e e' : Entry}

/-- A creation takes the next number and adds two entries. -/
theorem Made.numbered {kind mode : UInt32} (h : w.Numbered es)
    (hmade : Made w w' es kind path mode env o pre e post e') :
    w'.Numbered (pre ++ e.marked :: post ++
      [e', nodeEntry (w.curInodeNum + 1) (kind ||| mode) env]) := by
  have hcur : w'.curInodeNum.toNat = w.curInodeNum.toNat + 1 := by
    rw [hmade.curInodeNum_eq, h.succ_toNat]
  refine ⟨hmade.sound h.sound, ?_, ?_⟩
  · intro x hx
    rw [hcur]
    rcases (hmade.numbers_iff x.number).mp ⟨x, hx, rfl⟩ with ⟨y, hy, hnumber⟩ | hnew
    · have hle := h.number_le y hy
      rw [hnumber] at hle
      omega
    · rw [hnew, h.succ_toNat]
  · have hle := h.cur_le
    rw [hmade.found.last.split] at hle
    simp only [List.length_append, List.length_cons, List.length_nil] at hle ⊢
    omega

/-- A write to a file adds one entry, with a number that the log has. -/
theorem Wrote.numbered {buffer : Int → UInt8} {size : Nat} {offset : Int} (h : w.Numbered es)
    (hwrote : Wrote w w' es path buffer size offset env o pre e post e')
    (hfile : ¬ e.inode.IsDir) : w'.Numbered (pre ++ e.marked :: post ++ [e']) := by
  have hcur : w'.curInodeNum = w.curInodeNum := by
    rw [hwrote.state]
    rfl
  have hnumber : e'.number = e.number := (number_live_of_written hwrote.inode).1
  refine ⟨hwrote.sound h.sound hfile, ?_, ?_⟩
  · intro x hx
    rw [hcur]
    rcases hwrote.found.mem_superseded hx with hold | rfl | hmore
    · exact h.number_le x hold
    · exact h.number_le e hwrote.found.last.mem
    · rw [List.mem_singleton.mp hmore, hnumber]
      exact h.number_le e hwrote.found.last.mem
  · have hle := h.cur_le
    rw [hwrote.found.last.split] at hle
    rw [hcur]
    simp only [List.length_append, List.length_cons, List.length_nil] at hle ⊢
    omega

end Calls

theorem Numbered.next (h : w.Numbered es) {c : Call} (hc : w.Ordinary c)
    (hnext : w.next c = some w') : ∃ es', w'.Numbered es' := by
  obtain ⟨o, hdid⟩ := h.sound.holds.next_did hc.1 hnext
  cases hdid with
  | made hcreates hmade => exact ⟨_, hmade.numbered h⟩
  | wrote hwrote => exact ⟨_, hwrote.numbered h (hc.not_isDir h.sound.holds hwrote)⟩

/-- In every state that ordinary calls reach from a fresh image, the next number is fresh. -/
theorem numbered_of_run {image : Image} {env : Env} {w₀ : Wfs} {cs : List Call}
    (hlen : sizeofSb + sizeofInode ≤ image.len) (hmount : mount (mkfs image env) = some w₀)
    (run : Run (guarded Ordinary (stepOf Wfs.next)) w₀ cs w) : ∃ es, w.Numbered es := by
  apply run.invariant (fun u => ∃ es, u.Numbered es) ⟨_, Numbered.init hlen hmount⟩
  rintro t c u ⟨es, ht⟩ ⟨hc, hstep⟩
  exact ht.next hc hstep

/-! ## One creation -/

/-- The attributes of a directory after a creation in it: those before, a larger size, and times
that are not earlier. -/
structure Stat.GrownBy (st st' : Stat) : Prop where
  mode : st'.mode = st.mode
  uid : st'.uid = st.uid
  gid : st'.gid = st.gid
  nlink : st'.nlink = st.nlink
  size : st'.size.toNat = st.size.toNat + sizeofDentry
  atime : st.atime ≤ st'.atime
  mtime : st.mtime ≤ st'.mtime

/-- A creation kept the attributes of the parent, apart from what grows, and those of every other
path that existed. -/
structure KeepsAttributes (w : Wfs) (c : Call) (w' : Wfs) : Prop where
  parent : ∃ st st', w.wfsGetattr c.target = some (.ok st) ∧
    w'.wfsGetattr c.target = some (.ok st') ∧ st.GrownBy st'
  others : ∀ q n, w.Through q → w.numberAt q = some (some n) → tokens q ≠ tokens c.target →
    w'.wfsGetattr q = w.wfsGetattr q

/-- No other path leads to the inode of this path. -/
def Alone (w : Wfs) (path : Bytes) : Prop :=
  ∀ q n, w.Through q → w.numberAt q = some (some n) → w.numberAt path = some (some n) →
    tokens q = tokens path

section Made

variable {kind mode : UInt32} {path : Bytes} {env : Env} {pre post : List Entry} {e e' : Entry}

/-- The attributes in the new entry of the parent. -/
theorem Made.size_toNat (hmade : Made w w' es kind path mode env o pre e post e')
    (hdisk : inodeAt w.disk o = e.inode) :
    e'.inode.size.toNat = e.inode.size.toNat + sizeofDentry := by
  have hwrap := hmade.wrap
  rw [parentLength, hdisk] at hwrap
  rw [hmade.inode]
  exact toNat_ofNat_of_lt (by omega)

/-- A path to the parent shows the new entry of the parent. -/
theorem Made.getattr_parent (h : w.Numbered es)
    (hmade : Made w w' es kind path mode env o pre e post e') {q : Bytes} (hq : w.Through q)
    (hn : w.numberAt q = some (some e.number)) :
    w.wfsGetattr q = some (.ok ⟨e.inode.mode, e.inode.uid, e.inode.gid, e.inode.atime,
        e.inode.mtime, e.inode.size, e.inode.links⟩) ∧
      w'.wfsGetattr q = some (.ok ⟨e.inode.mode, e.inode.uid, e.inode.gid, e.inode.atime,
        0, e'.inode.size, e.inode.links⟩) := by
  have h' := hmade.sound h.sound
  have he := h.sound.holds.inode_of_found hmade.found
  have hwalk : walkNumber w.inode 0 (tokens q) = some (some e.number) := by
    rw [← h.sound.numberAt_eq hq]
    exact hn
  obtain ⟨hwalk', hq'⟩ := hmade.walk_kept h.sound h.fresh hq hwalk
  have he' : w'.inode e.number = some e' := by
    rw [hmade.inode_eq h.sound.holds, if_neg (h.fresh e hmade.found.last.mem), if_pos rfl]
  obtain ⟨a, ha, hentry⟩ := h.sound.resolve hq hwalk he
  obtain ⟨a', ha', hentry'⟩ := h'.resolve hq' hwalk' he'
  refine ⟨getattr_eq ha hentry, ?_⟩
  rw [getattr_eq ha' hentry', hmade.inode]
  rfl

end Made

/-- A creation in a directory keeps the attributes exactly if the directory had the modification
time zero and no other path leads to it. -/
theorem Numbered.keepsAttributes_iff (h : w.Numbered es) {c : Call} (hstep : creating w c w')
    (hpath : w.Through c.target) (hparent : w.pathToInode c.target = some (some o)) :
    w.KeepsAttributes c w' ↔ (inodeAt w.disk o).mtime = 0 ∧ w.Alone c.target := by
  obtain ⟨kind, mode, env, o', pre, e, post, e', hmade, htarget, -⟩ := h.sound.created hstep
  obtain rfl : o' = o := by simpa [hparent] using htarget.symm
  have hinode := h.sound.holds.inodeAt_eq hmade.found
  have hsize := hmade.size_toNat hinode
  have hs : sizeofDentry = 40 := rfl
  have hnumber : w.numberAt c.target = some (some e.number) := by
    rw [numberAt, htarget, Option.map_some, Option.map_some, hinode]
    rfl
  obtain ⟨hbefore, hafter⟩ := hmade.getattr_parent h hpath hnumber
  rw [hinode]
  constructor
  · rintro ⟨⟨st, st', hst, hst', hgrown⟩, hothers⟩
    rw [hbefore, Option.some.injEq, Except.ok.injEq] at hst
    rw [hafter, Option.some.injEq, Except.ok.injEq] at hst'
    have hmtime := hgrown.mtime
    rw [← hst, ← hst'] at hmtime
    refine ⟨UInt32.le_antisymm hmtime (UInt32.zero_le ..), ?_⟩
    intro q n hq hn hn'
    by_contra hne
    obtain rfl : e.number = n := by simpa [hnumber] using hn'
    -- the other path shows the larger size as well
    obtain ⟨hqbefore, hqafter⟩ := hmade.getattr_parent h hq hn
    have hsame := hothers q e.number hq hn hne
    rw [hqbefore, hqafter] at hsame
    simp only [Option.some.injEq, Except.ok.injEq, Stat.mk.injEq] at hsame
    have hsizes := congrArg UInt32.toNat hsame.2.2.2.2.2.1
    omega
  · rintro ⟨hmtime, halone⟩
    refine ⟨⟨_, _, hbefore, hafter, rfl, rfl, rfl, rfl, hsize, UInt32.le_refl _, ?_⟩, ?_⟩
    · show e.inode.mtime ≤ 0
      rw [hmtime]
      exact UInt32.le_refl 0
    · intro q n hq hn hne
      refine (hmade.paths_kept h.sound h.fresh hq hn).2 ?_ |>.2
      rintro rfl
      exact hne (halone q _ hq hn hnumber)

/-- In every state that ordinary calls reach from a fresh image, a creation in a directory keeps
its attributes and those of all other paths if and only if the modification time of the directory
is zero and no other path leads to it. -/
theorem creation_keeps_attributes_iff {image : Image} {env : Env} {w₀ : Wfs} {cs : List Call}
    (hlen : sizeofSb + sizeofInode ≤ image.len) (hmount : mount (mkfs image env) = some w₀)
    (run : Run (guarded Ordinary (stepOf Wfs.next)) w₀ cs w) {c : Call}
    (hstep : creating w c w') (hpath : w.Through c.target)
    (hparent : w.pathToInode c.target = some (some o)) :
    w.KeepsAttributes c w' ↔ (inodeAt w.disk o).mtime = 0 ∧ w.Alone c.target := by
  obtain ⟨es, h⟩ := numbered_of_run hlen hmount run
  exact h.keepsAttributes_iff hstep hpath hparent

/-! ## The first file -/

/-- Only `/` leads to an empty root directory. -/
theorem Sound.alone_of_empty_root (h : w.Sound es) {e : Entry} (hroot : w.inode 0 = some e)
    (hempty : e.inode.size = 0) {path : Bytes} (hpath : tokens path = []) : w.Alone path := by
  intro q n hq hn _
  rw [h.numberAt_eq hq] at hn
  cases htoks : tokens q with
  | nil => exact hpath.symm
  | cons tok toks =>
    have hlookup : e.lookup tok = minusOne := by
      unfold Entry.lookup
      rw [Entry.dentries_of_size_zero hempty]
      rfl
    rw [htoks, walkNumber, hroot, Option.bind_some, if_pos hlookup] at hn
    cases hn

/-- A clock at 7. -/
def clockAt7 : Env := { quietEnv with atime := 7, mtime := 7, ctime := 7 }

/-- `wfs_mknod("/a")` in a fresh page made with the clock of `env`. -/
theorem first_file {env : Env}
    (hobs : ((mount (mkfs onePage env)).bind fun w =>
      (w.next mknodA).map fun u =>
        decide (w.HeadFits mknodA ∧ w.pathToInode mknodA.target = some (some 8) ∧
          w.Through mknodA.target ∧ (inodeAt w.disk 8).mtime = env.mtime ∧
          (w.inode 0).map (fun e => e.inode.size) = some 0 ∧
          (u.wfsGetattr mknodA.target).map (fun r => r.toOption.map Stat.mtime) = some (some 0))) =
      some true) :
    ∃ w₀ w, mount (mkfs onePage env) = some w₀ ∧ creating w₀ mknodA w ∧
      w₀.pathToInode mknodA.target = some (some 8) ∧ w₀.Through mknodA.target ∧
      (inodeAt w₀.disk 8).mtime = env.mtime ∧ w₀.Alone mknodA.target ∧
      (w.wfsGetattr mknodA.target).map (fun r => r.toOption.map Stat.mtime) = some (some 0) := by
  obtain ⟨w₀, hmount, hobs⟩ := Option.bind_eq_some_iff.mp hobs
  obtain ⟨w, hnext, hobs⟩ := Option.map_eq_some_iff.mp hobs
  obtain ⟨hfits, hresolves, hpath, hmtime, hsize, hafter⟩ := of_decide_eq_true hobs
  obtain ⟨e, hroot, hempty⟩ := Option.map_eq_some_iff.mp hsize
  exact ⟨w₀, w, hmount, ⟨⟨hfits, _, _, _, _, mknodA_creates⟩, hnext⟩, hresolves, hpath, hmtime,
    (Sound.init (by decide) hmount).alone_of_empty_root hroot hempty (by decide), hafter⟩

/-- The theorem at the first file of an image made with the clock at 0. -/
theorem creation_keeps_attributes_iff_clock_at_zero :
    ∃ w₀ w, mount (mkfs onePage quietEnv) = some w₀ ∧ creating w₀ mknodA w ∧
      w₀.KeepsAttributes mknodA w := by
  obtain ⟨w₀, w, hmount, hstep, hresolves, hpath, hmtime, halone, -⟩ :=
    @first_file quietEnv (by decide +kernel)
  exact ⟨w₀, w, hmount, hstep,
    (creation_keeps_attributes_iff (by decide) hmount .nil hstep hpath hresolves).mpr
      ⟨hmtime, halone⟩⟩

/-- With the clock at 7, the modification time of `/` is 7 before its first file and 0 after. -/
theorem mtime_lost_by_first_file :
    ∃ w₀ w, mount (mkfs onePage clockAt7) = some w₀ ∧ creating w₀ mknodA w ∧
      w₀.Through mknodA.target ∧ w₀.pathToInode mknodA.target = some (some 8) ∧
      (inodeAt w₀.disk 8).mtime = 7 ∧
      (w.wfsGetattr mknodA.target).map (fun r => r.toOption.map Stat.mtime) = some (some 0) ∧
      ¬ w₀.KeepsAttributes mknodA w := by
  obtain ⟨w₀, w, hmount, hstep, hresolves, hpath, hmtime, -, hafter⟩ :=
    @first_file clockAt7 (by decide +kernel)
  refine ⟨w₀, w, hmount, hstep, hpath, hresolves, hmtime, hafter, ?_⟩
  rintro ⟨⟨st, st', hst, hst', hgrown⟩, -⟩
  have hbefore := getattr_eq hresolves rfl
  rw [hst, Option.some.injEq, Except.ok.injEq] at hbefore
  rw [hst', Option.map_some, Option.some.injEq] at hafter
  have hle : (inodeAt w₀.disk 8).mtime ≤ st'.mtime := by
    rw [hbefore] at hgrown
    exact hgrown.mtime
  rw [hmtime, Option.some.inj hafter] at hle
  exact absurd hle (by decide)

end Wfs

end Cs537.P7
