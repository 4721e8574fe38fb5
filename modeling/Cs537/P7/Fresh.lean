import Cs537.P7.Names

/-!
# Numbers of new inodes

`main` sets `cur_inode_num` to 100 at every mount, whatever numbers the log on the image uses, and
each creation takes the next one. So the numbers are fresh exactly as long as the image does not
use them. A number that is used twice makes the old inode unreachable, because the lookup takes
the last entry with a number.
-/

namespace Cs537.P7

open Cs537.Lib

namespace Wfs

variable {w w' : Wfs} {es : List Entry} {o : Nat}

/-- A creation took a fresh number, which it left in `cur_inode_num`: no entry of the log has it,
and every path that existed leads where it led and shows what it showed, the parent's own content
apart. -/
structure Fresh (w : Wfs) (c : Call) (w' : Wfs) : Prop where
  number : ∃ es, w.Holds es ∧ ∀ e ∈ es, e.number ≠ w'.curInodeNum
  paths : ∀ q n, w.Through q → w.numberAt q = some (some n) →
    w'.numberAt q = some (some n) ∧
      (w.numberAt c.target ≠ some (some n) →
        (∀ k, w'.wfsRead q k 0 = w.wfsRead q k 0) ∧ w'.wfsGetattr q = w.wfsGetattr q)

/-! ## One creation -/

section Made

variable {kind mode : UInt32} {path : Bytes} {env : Env} {pre post : List Entry} {e e' : Entry}

theorem Made.curInodeNum_eq (hmade : Made w w' es kind path mode env o pre e post e') :
    w'.curInodeNum = w.curInodeNum + 1 := by
  rw [hmade.state]
  rfl

/-- A creation with a fresh number: a path that exists leads where it led. -/
theorem Made.walk_kept (h : w.Sound es) (hmade : Made w w' es kind path mode env o pre e post e')
    (hfresh : ∀ x ∈ es, x.number ≠ w.curInodeNum + 1) {q : Bytes} {n : UInt32}
    (hq : w.Through q) (hwalk : walkNumber w.inode 0 (tokens q) = some (some n)) :
    walkNumber w'.inode 0 (tokens q) = some (some n) ∧ w'.Through q := by
  have hnum : w.inode (w.curInodeNum + 1) = none := by
    rw [Option.eq_none_iff_forall_ne_some]
    intro x hx
    obtain ⟨hmem, -, hnumber⟩ := h.holds.mem_of_inode hx
    exact hfresh x hmem hnumber
  have hgrow : e.inode.IsDir → e'.inode.IsDir ∧
      ∀ tok, e.lookup tok ≠ minusOne → e'.lookup tok = e.lookup tok := by
    intro hdir
    obtain ⟨number, hdentries⟩ := hmade.dentries_eq h hdir
    exact ⟨hmade.isDir_iff.mpr hdir, fun tok => Entry.lookup_grow hdentries⟩
  exact walkNumber_of_created (h.holds.inode_of_found hmade.found) hnum hgrow
    (hmade.inode_eq h.holds) hq hwalk

/-- A creation with a fresh number changes no other path. -/
theorem Made.paths_kept (h : w.Sound es) (hmade : Made w w' es kind path mode env o pre e post e')
    (hfresh : ∀ x ∈ es, x.number ≠ w.curInodeNum + 1) {q : Bytes} {n : UInt32}
    (hq : w.Through q) (hn : w.numberAt q = some (some n)) :
    w'.numberAt q = some (some n) ∧
      (n ≠ e.number → (∀ k, w'.wfsRead q k 0 = w.wfsRead q k 0) ∧
        w'.wfsGetattr q = w.wfsGetattr q) := by
  have h' := hmade.sound h
  have hwalk : walkNumber w.inode 0 (tokens q) = some (some n) := by
    rw [← h.numberAt_eq hq]
    exact hn
  obtain ⟨hwalk', hq'⟩ := hmade.walk_kept h hfresh hq hwalk
  refine ⟨(h'.numberAt_eq hq').trans hwalk', ?_⟩
  intro hne
  refine (h.same_view h' hq hq' (hwalk'.trans hwalk.symm) ?_).2
  intro m hm
  rw [hwalk, Option.some.injEq, Option.some.injEq] at hm
  subst hm
  obtain ⟨x, hx⟩ := inode_of_walkNumber hwalk
  obtain ⟨hmem, -, hnumber⟩ := h.holds.mem_of_inode hx
  rw [hmade.inode_eq h.holds, if_neg (hnumber ▸ hfresh x hmem), if_neg hne]

/-- The numbers in the log after a creation. -/
theorem Made.numbers_iff (hmade : Made w w' es kind path mode env o pre e post e') (k : UInt32) :
    (∃ x ∈ pre ++ e.marked :: post ++ [e', nodeEntry (w.curInodeNum + 1) (kind ||| mode) env],
        x.number = k) ↔
      (∃ x ∈ es, x.number = k) ∨ k = w.curInodeNum + 1 := by
  have hnumber : e'.number = e.number := (number_live_of_newParent hmade.inode).1
  have hnode : (nodeEntry (w.curInodeNum + 1) (kind ||| mode) env).number = w.curInodeNum + 1 := rfl
  rw [hmade.found.last.split]
  simp only [List.mem_append, List.mem_cons, List.not_mem_nil, or_false, or_and_right, exists_or,
    exists_eq_left, Entry.marked_number, hnumber, hnode, @eq_comm _ k]
  by_cases hk : e.number = k
  · simp only [hk, true_or, or_true]
  · simp only [hk, false_or]

end Made

/-- A creation takes a fresh number exactly if the log does not have it. -/
theorem Sound.fresh_iff (h : w.Sound es) {c : Call} (hstep : creating w c w') :
    Fresh w c w' ↔ ∀ e ∈ es, e.number ≠ w.curInodeNum + 1 := by
  obtain ⟨kind, mode, env, o, pre, e, post, e', hmade, htarget, -⟩ := h.created hstep
  have hcur := hmade.curInodeNum_eq
  constructor
  · rintro ⟨⟨fs, hfs, hnumber⟩, -⟩
    obtain rfl := hfs.unique h.holds
    rw [← hcur]
    exact hnumber
  · intro hfresh
    refine ⟨⟨es, h.holds, by rw [hcur]; exact hfresh⟩, ?_⟩
    intro q n hq hn
    obtain ⟨hsame, hview⟩ := hmade.paths_kept h hfresh hq hn
    refine ⟨hsame, fun hparent => hview ?_⟩
    rintro rfl
    apply hparent
    rw [numberAt, htarget, Option.map_some, Option.map_some, h.holds.inodeAt_eq hmade.found]
    rfl

/-! ## Runs -/

/-- What `n` creations have made of a log `es`: the numbers from 101 on were added to those in
it. -/
structure Grown (es : List Entry) (n : Nat) (w : Wfs) (fs : List Entry) : Prop where
  sound : w.Sound fs
  count : fs.length = es.length + 2 * n
  cur : w.curInodeNum.toNat = 100 + n
  numbers : ∀ k : UInt32, (∃ e ∈ fs, e.number = k) ↔
    (∃ e ∈ es, e.number = k) ∨ (101 ≤ k.toNat ∧ k.toNat ≤ 100 + n)

variable {n : Nat} {fs : List Entry}

/-- There is room for few creations only, so `cur_inode_num` does not overflow. -/
theorem Grown.succ_toNat (h : Grown es n w fs) : (w.curInodeNum + 1).toNat = 101 + n := by
  have hlength := LogIs.length_le h.sound.holds
  have hhead := w.head.toNat_lt
  have hcount := h.count
  rw [sizeofInode] at hlength
  rw [UInt32.toNat_add, h.cur]
  show (100 + n + 1) % 2 ^ 32 = 101 + n
  omega

theorem Grown.step (h : Grown es n w fs) {c : Call} (hstep : creating w c w') :
    ∃ fs', Grown es (n + 1) w' fs' := by
  obtain ⟨kind, mode, env, o, pre, e, post, e', hmade, -, -⟩ := h.sound.created hstep
  have hsucc := h.succ_toNat
  refine ⟨_, hmade.sound h.sound, ?_, ?_, ?_⟩
  · have hcount := h.count
    rw [hmade.found.last.split] at hcount
    simp only [List.length_append, List.length_cons, List.length_nil] at hcount ⊢
    omega
  · rw [hmade.curInodeNum_eq, hsucc]
    omega
  · intro k
    rw [hmade.numbers_iff, h.numbers, ← UInt32.toNat_inj, hsucc, or_assoc]
    apply or_congr_right
    omega

/-- The log after a run of creations on a mounted image. -/
theorem grown_of_run {image : Image} {w₀ : Wfs} {cs : List Call} (hmount : mount image = some w₀)
    (hsound : w₀.Sound es) (run : Run creating w₀ cs w) : ∃ fs, Grown es cs.length w fs := by
  induction run with
  | nil =>
    refine ⟨es, hsound, rfl, ?_, ?_⟩
    · unfold mount at hmount
      simp only [Option.ite_none_left_eq_some, Option.some.injEq] at hmount
      obtain ⟨-, rfl⟩ := hmount
      rfl
    · intro k
      simp only [List.length_nil]
      constructor
      · exact .inl
      · rintro (hk | hk)
        · exact hk
        · omega
  | snoc _ hstep ih =>
    obtain ⟨fs, h⟩ := ih
    rw [List.length_append, List.length_singleton]
    exact h.step hstep

/-- A creation after `n` others takes a fresh number exactly if the image does not use
`101 + n`. -/
theorem Grown.fresh_iff (h : Grown es n w fs) {c : Call} (hstep : creating w c w') :
    Fresh w c w' ↔ ∀ e ∈ es, e.number.toNat ≠ 101 + n := by
  have hsucc := h.succ_toNat
  have hnone : (∀ e ∈ fs, e.number ≠ w.curInodeNum + 1) ↔
      ¬ ∃ e ∈ fs, e.number = w.curInodeNum + 1 := by
    simp only [not_exists, not_and, ne_eq]
  rw [h.sound.fresh_iff hstep, hnone, h.numbers, hsucc]
  constructor
  · intro hno e he hnumber
    refine hno (.inl ⟨e, he, ?_⟩)
    rw [← UInt32.toNat_inj, hsucc]
    exact hnumber
  · rintro hno (⟨e, he, hnumber⟩ | hrange)
    · refine hno e he ?_
      rw [hnumber, hsucc]
    · omega

/-- On every mounted image with a sound log, the creations of a run all take fresh numbers if and
only if the image does not use the numbers from 101 on, one for each of them. -/
theorem numbers_fresh_iff {image : Image} {w₀ : Wfs} {cs : List Call}
    (hmount : mount image = some w₀) (hsound : w₀.Sound es) (run : Run creating w₀ cs w) :
    Run (outcome Fresh creating) w₀ cs w ↔
      ∀ e ∈ es, ¬ (101 ≤ e.number.toNat ∧ e.number.toNat ≤ 100 + cs.length) := by
  constructor
  · intro fresh
    clear run
    induction fresh with
    | nil =>
      intro e _ hrange
      rw [List.length_nil] at hrange
      omega
    | snoc hbefore hstep ih =>
      have hrun := (hbefore.imp (fun _ => True) trivial fun _ _ _ _ h => ⟨trivial, h.2⟩).2
      obtain ⟨fs, h⟩ := grown_of_run hmount hsound hrun
      have hnew := (h.fresh_iff hstep.2).mp hstep.1
      intro e he hrange
      have hold := ih e he
      have hne := hnew e he
      rw [List.length_append, List.length_singleton] at hrange
      omega
  · intro hunused
    induction run with
    | nil => exact .nil
    | snoc hbefore hstep ih =>
      obtain ⟨fs, h⟩ := grown_of_run hmount hsound hbefore
      rw [List.length_append, List.length_singleton] at hunused
      refine .snoc (ih ?_) ⟨(h.fresh_iff hstep).mpr ?_, hstep⟩
      · intro e he hrange
        exact hunused e he (by omega)
      · intro e he hnumber
        exact hunused e he (by omega)

/-- The theorem at a fresh image and one call of `wfs_mknod("/a")`. -/
theorem numbers_fresh_iff_one_file :
    ∃ w₀ w, mount (mkfs onePage quietEnv) = some w₀ ∧ creating w₀ mknodA w ∧
      Run (outcome Fresh creating) w₀ [mknodA] w := by
  have hobs : ((mount (mkfs onePage quietEnv)).bind fun w =>
      (w.next mknodA).map fun _ =>
        (w.pathToInode mknodA.target, decide (w.head.toNat + mknodA.appended w 8 < 2 ^ 32))) =
      some (some (some 8), true) := by decide +kernel
  obtain ⟨w₀, hmount, hobs⟩ := Option.bind_eq_some_iff.mp hobs
  obtain ⟨w, hnext, hobs⟩ := Option.map_eq_some_iff.mp hobs
  simp only [Prod.mk.injEq, decide_eq_true_eq] at hobs
  have hstep : creating w₀ mknodA w :=
    ⟨⟨headFits_of_resolves hobs.1 hobs.2, _, _, _, _, mknodA_creates⟩, hnext⟩
  refine ⟨w₀, w, hmount, hstep, ?_⟩
  apply (numbers_fresh_iff hmount (Sound.init (by decide) hmount) (Run.snoc Run.nil hstep)).mpr
  intro e he hrange
  rw [List.mem_singleton] at he
  subst he
  exact absurd hrange (by decide)

/-! ## An image of an earlier mount -/

/-- The image that is left if the superblock says where the log ends. -/
def saved (w : Wfs) : Image where
  bytes := w.disk.write 4 (le32 w.head)
  len := w.len

/-- Such an image can be mounted and has the same log. -/
theorem Sound.mount_saved (h : w.Sound es) (hmagic : w.disk.u32 0 = wfsMagic)
    (hhead : w.head.toNat ≤ w.len) : ∃ w₀, mount w.saved = some w₀ ∧ w₀.Sound es := by
  have hend := h.holds.head_eq
  have hs : sizeofSb = 8 := rfl
  have hmagic' : Mem.u32 (fun a => if a < w.len then w.disk.write 4 (le32 w.head) a else 0) 0 =
      wfsMagic := by
    rw [← hmagic]
    apply Mem.u32_congr
    intro a _ ha
    rw [if_pos (by omega)]
    exact Mem.write_of_lt (by omega)
  have hhead' : Mem.u32 (fun a => if a < w.len then w.disk.write 4 (le32 w.head) a else 0) 4 =
      w.head := by
    apply Mem.u32_of_slice
    refine Eq.trans ?_ (Mem.slice_write_self w.disk 4 (le32 w.head))
    apply Mem.slice_congr
    intro i hi
    rw [if_pos (by omega)]
  have hmount : mount w.saved = some
      { disk := fun a => if a < w.len then w.disk.write 4 (le32 w.head) a else 0
        mapped := (w.len + 4095) / 4096 * 4096
        len := w.len
        head := w.head
        curInodeNum := 100 } := by
    refine (if_neg (not_not.mpr hmagic')).trans ?_
    exact congrArg (fun head => some (Wfs.mk _ _ w.len head 100)) hhead'
  refine ⟨_, hmount, ?_, h.sizes, h.names, ?_, ?_⟩
  · apply LogIs.congr h.holds
    intro a ha hlt
    simp only
    rw [if_pos (by omega)]
    exact Mem.write_of_ge (by rw [length_le32]; omega)
  · simp only
    omega
  · simp only
    omega

/-- The image of a page on which `wfs_mknod("/a")` was called. -/
def imageWithA : Option Image :=
  ((mount (mkfs onePage quietEnv)).bind fun w => w.next mknodA).map saved

/-- The call `wfs_mkdir("/b")` with mode 0. -/
def mkdirB : Call := .mkdir [slash, 98] 0 quietEnv

/-- Mounted again, the file `/a` has inode number 101. The first `wfs_mkdir` takes the same
number and turns the file into a directory. -/
theorem number_taken_after_remount :
    ∃ image w₀ es w, imageWithA = some image ∧ mount image = some w₀ ∧ w₀.Sound es ∧
      creating w₀ mkdirB w ∧
      (w₀.wfsGetattr [slash, 97]).map (fun r => r.toOption.map Stat.mode) = some (some sIfreg) ∧
      (w.wfsGetattr [slash, 97]).map (fun r => r.toOption.map Stat.mode) = some (some sIfdir) ∧
      ¬ Fresh w₀ mkdirB w := by
  have hobs : ((mount (mkfs onePage quietEnv)).bind fun v =>
      (v.next mknodA).bind fun u =>
        (mount u.saved).bind fun w =>
          (w.next mkdirB).map fun w' =>
            ((w.wfsGetattr [slash, 97]).map (fun r => r.toOption.map Stat.mode),
              (w'.wfsGetattr [slash, 97]).map (fun r => r.toOption.map Stat.mode),
              decide (v.pathToInode mknodA.target = some (some 8) ∧
                w.pathToInode mkdirB.target = some (some 52) ∧
                v.head.toNat + mknodA.appended v 8 < 2 ^ 32 ∧
                w.head.toNat + mkdirB.appended w 52 < 2 ^ 32 ∧
                u.disk.u32 0 = wfsMagic ∧ u.head.toNat ≤ u.len ∧
                (w.inode 101).isSome = true ∧ w'.curInodeNum = 101))) =
      some (some (some sIfreg), some (some sIfdir), true) := by decide +kernel
  obtain ⟨v, hfresh, hobs⟩ := Option.bind_eq_some_iff.mp hobs
  obtain ⟨u, hfirst, hobs⟩ := Option.bind_eq_some_iff.mp hobs
  obtain ⟨w₀, hmount, hobs⟩ := Option.bind_eq_some_iff.mp hobs
  obtain ⟨w, hnext, hobs⟩ := Option.map_eq_some_iff.mp hobs
  simp only [Prod.mk.injEq, decide_eq_true_eq] at hobs
  obtain ⟨hbefore, hafter, hroot, hroot', hsmall, hsmall', hmagic, hhead, hused, hcur⟩ := hobs
  -- the log on the image is a sound one
  have hstep : creating v mknodA u :=
    ⟨⟨headFits_of_resolves hroot hsmall, _, _, _, _, mknodA_creates⟩, hfirst⟩
  obtain ⟨kind, mode, env, o, pre, e, post, e', hmade, -, -⟩ :=
    (Sound.init (by decide) hfresh).created hstep
  obtain ⟨w₁, hmount', hsound⟩ := (hmade.sound (Sound.init (by decide) hfresh)).mount_saved hmagic hhead
  obtain rfl : w₁ = w₀ := by
    rw [hmount, Option.some.injEq] at hmount'
    exact hmount'.symm
  have hstep' : creating w₁ mkdirB w :=
    ⟨⟨headFits_of_resolves hroot' hsmall', _, _, _, _, .mkdir _ _ _⟩, hnext⟩
  refine ⟨u.saved, w₁, _, w, ?_, hmount, hsound, hstep', hbefore, hafter, ?_⟩
  · rw [imageWithA, hfresh, Option.bind_some, hfirst, Option.map_some]
  · rintro ⟨⟨es, hes, hnumber⟩, -⟩
    obtain ⟨x, hx⟩ := Option.isSome_iff_exists.mp hused
    obtain ⟨hmem, -, hxnumber⟩ := hes.mem_of_inode hx
    exact hnumber x hmem (hxnumber.trans hcur.symm)

end Wfs

end Cs537.P7
