import Cs537.P7.Inodes

/-!
# Names in a directory

`wfs_mknod` and `wfs_mkdir` append a directory entry to the parent without looking whether its
name is there already, and never return `-EEXIST`. So the names in the directories stay unique
exactly in the runs that create new names only.
-/

namespace Cs537.P7

open Cs537.Lib

namespace Wfs

variable {w w' : Wfs} {es : List Entry} {o : Nat}

/-- `EEXIST`. -/
def eexist : Int := 17

/-- The names in a directory. -/
def names (e : Entry) : List Bytes := e.dentries.map Prod.fst

/-- No live directory in the log has two directory entries of one name. -/
def UniqueNames (es : List Entry) : Prop :=
  ∀ e ∈ es, e.Live → e.inode.IsDir → (names e).Nodup

/-- The disk holds a log without a live directory that has a name twice. -/
def NamesUnique (w : Wfs) : Prop := ∃ es, w.Holds es ∧ UniqueNames es

/-- The path that a call creates. -/
def Call.path : Call → Bytes
  | .mknod path _ _ | .mkdir path _ _ | .write path _ _ _ _ => path

/-- The steps that return from `wfs_mknod` or `wfs_mkdir`. -/
def creating : Wfs → Call → Wfs → Prop :=
  guarded (fun w c => w.HeadFits c ∧ ∃ kind path mode env, c.Creates kind path mode env)
    (stepOf Wfs.next)

/-- The call creates a new name: its path does not resolve, and the parent, if it is a directory,
does not have the name. -/
def NewName (w : Wfs) (c : Call) : Prop :=
  (∀ o, w.pathToInode c.path ≠ some (some o)) ∧
    ∀ o, w.pathToInode c.target = some (some o) → (inodeAt w.disk o).IsDir →
      basename (cstr c.path) ∉ names (entryAt w.disk o)

/-- The call left the names unique, and if its path resolved already it failed with `-EEXIST` and
changed neither the disk nor `wp->head`. -/
def KeepsNames (w : Wfs) (c : Call) (w' : Wfs) : Prop :=
  w'.NamesUnique ∧ ∀ o, w.pathToInode c.path = some (some o) →
    w.exec c = some (-eexist, w') ∧ w'.disk = w.disk ∧ w'.head = w.head

/-- What a creation that returned did. -/
theorem Sound.created (h : w.Sound es) {c : Call} (hstep : creating w c w') :
    ∃ kind mode env o pre e post e', Made w w' es kind c.path mode env o pre e post e' ∧
      w.pathToInode c.target = some (some o) ∧ w.exec c = some (0, w') := by
  obtain ⟨⟨hfits, kind, path, mode, env, hc⟩, hnext⟩ := hstep
  obtain ⟨⟨r, u⟩, hexec, rfl⟩ := Option.map_eq_some_iff.mp hnext
  have hmake := hfits.makeNode hc
  cases hc with
  | mknod =>
    obtain ⟨rfl, o, pre, e, post, e', hmade⟩ := h.holds.makeNode_returns hmake hexec
    exact ⟨_, _, _, o, pre, e, post, e', hmade, hmade.resolves, hexec⟩
  | mkdir =>
    obtain ⟨rfl, o, pre, e, post, e', hmade⟩ := h.holds.makeNode_returns hmake hexec
    exact ⟨_, _, _, o, pre, e, post, e', hmade, hmade.resolves, hexec⟩

section Made

variable {kind mode : UInt32} {path : Bytes} {env : Env} {pre post : List Entry} {e e' : Entry}

/-- The names in the new entry of the parent. -/
theorem Made.names_eq (h : w.Sound es) (hmade : Made w w' es kind path mode env o pre e post e')
    (hdir : e.inode.IsDir) : names e' = names e ++ [basename (cstr path)] := by
  obtain ⟨number, hdentries⟩ := hmade.dentries_eq h hdir
  rw [names, hdentries, List.map_append, List.map_singleton, names]

theorem Made.isDir_iff (hmade : Made w w' es kind path mode env o pre e post e') :
    e'.inode.IsDir ↔ e.inode.IsDir := by
  rw [hmade.inode]
  exact Iff.rfl

/-- The names stay unique exactly if the parent gets a new one. -/
theorem Made.uniqueNames_iff (h : w.Sound es) (hunique : UniqueNames es)
    (hmade : Made w w' es kind path mode env o pre e post e') :
    UniqueNames (pre ++ e.marked :: post ++
        [e', nodeEntry (w.curInodeNum + 1) (kind ||| mode) env]) ↔
      (e.inode.IsDir → basename (cstr path) ∉ names e) := by
  have hmem := hmade.found.last.mem
  have hlive : e'.Live := (number_live_of_newParent hmade.inode).2
  constructor
  · intro hafter hdir hin
    have hnodup := hafter e' (by simp) hlive (hmade.isDir_iff.mpr hdir)
    rw [hmade.names_eq h hdir, List.nodup_append] at hnodup
    exact hnodup.2.2 _ hin _ (List.mem_singleton_self _) rfl
  · intro hnew x hx hxlive hdir
    rcases hmade.found.mem_superseded hx with hold | rfl | hmore
    · exact hunique x hold hxlive hdir
    · exact absurd hxlive e.not_live_marked
    rw [List.mem_cons, List.mem_singleton] at hmore
    rcases hmore with rfl | rfl
    · have hdir' := hmade.isDir_iff.mp hdir
      rw [hmade.names_eq h hdir', List.nodup_append]
      refine ⟨hunique e hmem hmade.found.live hdir', List.nodup_singleton _, ?_⟩
      rintro a ha b hb rfl
      rw [List.mem_singleton] at hb
      exact hnew hdir' (hb ▸ ha)
    · have hnone : (nodeEntry (w.curInodeNum + 1) (kind ||| mode) env).dentries = [] :=
        Entry.dentries_of_size_zero rfl
      rw [names, hnone]
      exact List.nodup_nil

end Made

/-- A creation that returned keeps the names unique exactly if it created a new name. -/
theorem Sound.newName_iff (h : w.Sound es) (hunique : UniqueNames es) {c : Call}
    (hstep : creating w c w') : w.NewName c ↔ w.KeepsNames c w' := by
  obtain ⟨kind, mode, env, o, pre, e, post, e', hmade, htarget, hexec⟩ := h.created hstep
  have hentry := h.holds.entryAt_eq hmade.found
  have hinode := h.holds.inodeAt_eq hmade.found
  have hiff := hmade.uniqueNames_iff h hunique
  constructor
  · rintro ⟨habsent, hnew⟩
    refine ⟨⟨_, hmade.holds, hiff.mpr ?_⟩, fun o' ho' => absurd ho' (habsent o')⟩
    intro hdir
    rw [← hentry]
    exact hnew o htarget (hinode ▸ hdir)
  · rintro ⟨⟨fs, hfs, hafter⟩, hexists⟩
    constructor
    · intro o' ho'
      have herror := (hexists o' ho').1
      rw [hexec] at herror
      exact absurd (Prod.mk.inj (Option.some.inj herror)).1 (by decide)
    · intro o' ho' hdir
      obtain rfl : o = o' := by simpa [htarget] using ho'
      obtain rfl := hfs.unique hmade.holds
      rw [hentry]
      exact hiff.mp hafter (hinode ▸ hdir)

/-- A creation of a new name keeps the log sound and its names unique. -/
theorem Sound.unique_of_newName (h : w.Sound es) (hunique : UniqueNames es) {c : Call}
    (hnew : w.NewName c) (hstep : creating w c w') :
    ∃ es', w'.Sound es' ∧ UniqueNames es' := by
  obtain ⟨fs, hfs, hafter⟩ := ((h.newName_iff hunique hstep).mp hnew).1
  obtain ⟨kind, mode, env, o, pre, e, post, e', hmade, -, -⟩ := h.created hstep
  obtain rfl := hfs.unique hmade.holds
  exact ⟨_, hmade.sound h, hafter⟩

/-- From a fresh image, the runs that create new names only leave the names in every directory
unique, and they are exactly the runs in which every call keeps the names as it should. -/
theorem names_unique_iff {image : Image} {env : Env} {w₀ : Wfs} {cs : List Call}
    (hlen : sizeofSb + sizeofInode ≤ image.len) (hmount : mount (mkfs image env) = some w₀) :
    (Run (guarded NewName creating) w₀ cs w → w.NamesUnique) ∧
      (Run (guarded NewName creating) w₀ cs w ↔ Run (outcome KeepsNames creating) w₀ cs w) := by
  have hinit : ∃ es, w₀.Sound es ∧ UniqueNames es := by
    refine ⟨_, Sound.init hlen hmount, ?_⟩
    intro e he _ _
    rw [List.mem_singleton] at he
    subst he
    have hnone : (rootEntry env).dentries = [] := Entry.dentries_of_size_zero rfl
    rw [names, hnone]
    exact List.nodup_nil
  constructor
  · intro run
    obtain ⟨es, h, hunique⟩ := run.invariant (fun u => ∃ es, u.Sound es ∧ UniqueNames es) hinit
      (by
        rintro t c u ⟨es, ht, hunique⟩ ⟨hnew, hstep⟩
        exact ht.unique_of_newName hunique hnew hstep)
    exact ⟨es, h.holds, hunique⟩
  · apply Run.guarded_iff_outcome (fun u => ∃ es, u.Sound es ∧ UniqueNames es) hinit
    · rintro t c u ⟨es, ht, hunique⟩ hnew hstep
      exact ht.unique_of_newName hunique hnew hstep
    · rintro t c u ⟨es, ht, hunique⟩ hstep
      exact ht.newName_iff hunique hstep

/-- The call `wfs_mknod("/a")` with mode 0. -/
def mknodA : Call := .mknod [slash, 97] 0 quietEnv

theorem mknodA_creates : mknodA.Creates sIfreg [slash, 97] 0 quietEnv := .mknod _ _ _

/-- The theorem at one page and one call of `wfs_mknod("/a")`. -/
theorem names_unique_iff_one_file :
    ∃ w₀ w, mount (mkfs onePage quietEnv) = some w₀ ∧
      Run (guarded NewName creating) w₀ [mknodA] w ∧ w.NamesUnique ∧
      Run (outcome KeepsNames creating) w₀ [mknodA] w := by
  have hobs : ((mount (mkfs onePage quietEnv)).bind fun w =>
      (w.next mknodA).map fun _ =>
        (w.pathToInode mknodA.target, w.pathToInode mknodA.path, names (entryAt w.disk 8),
          decide (w.head.toNat + mknodA.appended w 8 < 2 ^ 32))) =
      some (some (some 8), some none, [], true) := by decide +kernel
  obtain ⟨w₀, hmount, hobs⟩ := Option.bind_eq_some_iff.mp hobs
  obtain ⟨w, hnext, hobs⟩ := Option.map_eq_some_iff.mp hobs
  simp only [Prod.mk.injEq, decide_eq_true_eq] at hobs
  obtain ⟨hroot, habsent, hnames, hsmall⟩ := hobs
  have hnew : w₀.NewName mknodA := by
    constructor
    · intro o ho
      rw [habsent] at ho
      cases ho
    · intro o ho _
      rw [hroot, Option.some.injEq, Option.some.injEq] at ho
      rw [← ho, hnames]
      exact List.not_mem_nil
  have hstep : creating w₀ mknodA w :=
    ⟨⟨headFits_of_resolves hroot hsmall, _, _, _, _, mknodA_creates⟩, hnext⟩
  have hrun : Run (guarded NewName creating) w₀ [mknodA] w := Run.snoc Run.nil ⟨hnew, hstep⟩
  exact ⟨w₀, w, hmount, hrun, (names_unique_iff (by decide) hmount).1 hrun,
    (names_unique_iff (by decide) hmount).2.mp hrun⟩

/-- A second `wfs_mknod("/a")` returns 0, and the root directory has the name twice. -/
theorem name_twice_after_second_mknod :
    ∃ w₀ w₁ w₂, mount (mkfs onePage quietEnv) = some w₀ ∧
      creating w₀ mknodA w₁ ∧ creating w₁ mknodA w₂ ∧
      w₁.pathToInode mknodA.path = some (some 136) ∧ w₁.exec mknodA = some (0, w₂) ∧
      ¬ w₂.NamesUnique ∧ ¬ w₁.KeepsNames mknodA w₂ := by
  have hobs : ((mount (mkfs onePage quietEnv)).bind fun w =>
      (w.next mknodA).bind fun u =>
        (u.exec mknodA).map fun v =>
          ((v.2.inode 0).map fun e => (decide e.inode.IsDir, names e),
            decide (v.1 = 0 ∧ w.pathToInode mknodA.target = some (some 8) ∧
              u.pathToInode mknodA.target = some (some 52) ∧
              u.pathToInode mknodA.path = some (some 136) ∧
              w.head.toNat + mknodA.appended w 8 < 2 ^ 32 ∧
              u.head.toNat + mknodA.appended u 52 < 2 ^ 32))) =
      some (some (true, [[97], [97]]), true) := by decide +kernel
  obtain ⟨w₀, hmount, hobs⟩ := Option.bind_eq_some_iff.mp hobs
  obtain ⟨w₁, hfirst, hobs⟩ := Option.bind_eq_some_iff.mp hobs
  obtain ⟨⟨r, w₂⟩, hexec, hobs⟩ := Option.map_eq_some_iff.mp hobs
  simp only [Prod.mk.injEq, decide_eq_true_eq] at hobs
  obtain ⟨hdir, rfl, hroot, hroot', hfile, hsmall, hsmall'⟩ := hobs
  have hsecond : w₁.next mknodA = some w₂ := by
    simp [next, hexec]
  have hdup : ¬ w₂.NamesUnique := by
    rintro ⟨es, hes, hunique⟩
    obtain ⟨e, he, hfacts⟩ := Option.map_eq_some_iff.mp hdir
    simp only [Prod.mk.injEq, decide_eq_true_eq] at hfacts
    obtain ⟨hmem, hlive, -⟩ := hes.mem_of_inode he
    have hnodup := hunique e hmem hlive hfacts.1
    rw [hfacts.2] at hnodup
    exact absurd hnodup (by decide)
  exact ⟨w₀, w₁, w₂, hmount,
    ⟨⟨headFits_of_resolves hroot hsmall, _, _, _, _, mknodA_creates⟩, hfirst⟩,
    ⟨⟨headFits_of_resolves hroot' hsmall', _, _, _, _, mknodA_creates⟩, hsecond⟩,
    hfile, hexec, hdup, fun h => hdup h.1⟩

end Wfs

end Cs537.P7
