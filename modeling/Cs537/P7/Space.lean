import Cs537.P7.Inodes

/-!
# The end of the disk

No operation compares what it appends with `wp->len`; the test in `wfs_write` is commented out.
So the log stays on the disk as long as each call happens to fit, and a call that does not fit is
never turned down: it marks the old entry and writes behind the end of the file.
-/

namespace Cs537.P7

open Cs537.Lib

namespace Wfs

variable {w w' : Wfs} {es : List Entry} {o : Nat} {path : Bytes} {env : Env}

/-- `ENOSPC`. -/
def enospc : Int := 28

/-- The name of a new file or directory ends inside its directory entry. -/
def Call.NameFits : Call → Prop
  | .mknod path _ _ | .mkdir path _ _ => (basename (cstr path)).length + 1 ≤ sizeofDentry
  | .write _ _ _ _ _ => True

/-- A call, the entry of its target at offset `o`, respects the end of the disk: if its entries fit
it returns with the log still on the disk, else it fails and changes nothing. -/
def Respects (w : Wfs) (c : Call) (o : Nat) : Prop :=
  if w.head.toNat + c.appended w o ≤ w.len then
    ∃ r w', w.exec c = some (r, w') ∧ w'.head.toNat ≤ w'.len
  else w.exec c = some (-enospc, w)

/-- What a call appends fits on the disk. -/
def FitsDisk (w : Wfs) (c : Call) : Prop :=
  ∀ o, w.pathToInode c.target = some (some o) → w.Fits (c.appended w o)

/-! ## One call -/

theorem toNat_ofNat_le (k : Nat) : (UInt32.ofNat k).toNat ≤ k := by
  rw [UInt32.toNat_ofNat']
  exact Nat.mod_le _ _

/-- A creation that has room returns. Where `wp->head` wraps around, it becomes smaller. -/
theorem makeNode_of_room (kind : UInt32) (mode : UInt32) (env : Env)
    (hpath : w.pathToInode (dirname (cstr path)) = some (some o))
    (hbelow : o + sizeofInode ≤ w.head.toNat)
    (hname : (basename (cstr path)).length + 1 ≤ sizeofDentry)
    (hroom : w.head.toNat + w.parentLength o + sizeofInode ≤ w.mapped) :
    ∃ w', makeNode kind w path mode env = some (0, w') ∧ w'.len = w.len ∧
      w'.head.toNat ≤ w.head.toNat + w.parentLength o + sizeofInode := by
  have hs : sizeofInode = 44 := rfl
  have hreread (bs : Bytes) := size_reread bs hbelow
  have hparent : w.head.toNat + w.parentLength o ≤ w.mapped := by omega
  have hlen : sizeofInode + (inodeAt w.disk o).size.toNat + sizeofDentry = w.parentLength o := rfl
  have hhead := toNat_ofNat_le (w.head.toNat + w.parentLength o)
  simp only [makeNode, markDeleted, store, advance, hpath, Option.bind_eq_bind, Option.bind_some,
    Mem.length_slice, length_le32, guard, Inode.length_bytes]
  rw [if_pos (show o + 4 + 4 ≤ w.mapped by omega), if_pos hname]
  simp only [Option.bind_some, Option.pure_def, hlen, hparent, if_true, hreread]
  rw [if_pos (by omega), Option.bind_some]
  refine ⟨_, rfl, rfl, ?_⟩
  exact (toNat_ofNat_le _).trans (Nat.add_le_add_right hhead sizeofInode)

/-- The same of a write. -/
theorem wfsWrite_of_room (buffer : Int → UInt8) (size : Nat) (offset : Int) (env : Env)
    (hpath : w.pathToInode path = some (some o)) (hbelow : o + sizeofInode ≤ w.head.toNat)
    (hroom : w.head.toNat + (sizeofInode + writeSize size offset) ≤ w.mapped) :
    ∃ r w', w.wfsWrite path buffer size offset env = some (r, w') ∧ w'.len = w.len ∧
      w'.head.toNat ≤ w.head.toNat + (sizeofInode + writeSize size offset) := by
  have hs : sizeofInode = 44 := rfl
  have hsize := toNat_ofNat_le (writeSize size offset)
  have hmark : o + 4 + 4 ≤ w.mapped := by omega
  have hinode : w.head.toNat + sizeofInode ≤ w.mapped := by omega
  have hdata : w.head.toNat + sizeofInode + writeSize size offset ≤ w.mapped := by omega
  simp only [wfsWrite, markDeleted, store, advance, hpath, Option.bind_eq_bind, Option.bind_some,
    length_le32, Inode.length_bytes, List.length_map, List.length_range, hmark, hinode, hdata,
    if_true]
  refine ⟨_, _, rfl, rfl, ?_⟩
  refine (toNat_ofNat_le _).trans ?_
  simp only [writtenInode]
  omega

/-- No call returns `-ENOSPC` and leaves the file system as it was. -/
theorem Holds.not_enospc (h : w.Holds es) (c : Call) : w.exec c ≠ some (-enospc, w) := by
  intro hexec
  cases c with
  | mknod path mode env => exact absurd (makeNode_result hexec) (by decide)
  | mkdir path mode env => exact absurd (makeNode_result hexec) (by decide)
  | write path buffer size offset env => exact h.wfsWrite_changes hexec rfl

/-! ## Runs -/

/-- The log lies on the disk. -/
structure OnDisk (w : Wfs) (es : List Entry) : Prop where
  holds : w.Holds es
  head_le : w.head.toNat ≤ w.len
  len_le : w.len ≤ w.mapped

/-- A call respects the end of the disk exactly if its entries fit. -/
theorem OnDisk.respects_iff (h : w.OnDisk es) {c : Call}
    (hpath : w.pathToInode c.target = some (some o)) (hname : c.NameFits) :
    w.Respects c o ↔ w.head.toNat + c.appended w o ≤ w.len := by
  have hlen := h.len_le
  obtain ⟨pre, e, post, hf⟩ := h.holds.found hpath
  have hbelow := h.holds.below_head hf
  unfold Respects
  by_cases hfits : w.head.toNat + c.appended w o ≤ w.len
  · rw [if_pos hfits]
    refine iff_of_true ?_ hfits
    cases c with
    | mknod path mode env =>
      simp only [Call.appended] at hfits
      obtain ⟨w', hexec, hlen', hhead⟩ :=
        makeNode_of_room sIfreg mode env hpath hbelow hname (by omega)
      exact ⟨0, w', hexec, by omega⟩
    | mkdir path mode env =>
      simp only [Call.appended] at hfits
      obtain ⟨w', hexec, hlen', hhead⟩ :=
        makeNode_of_room sIfdir mode env hpath hbelow hname (by omega)
      exact ⟨0, w', hexec, by omega⟩
    | write path buffer size offset env =>
      simp only [Call.appended] at hfits
      obtain ⟨r, w', hexec, hlen', hhead⟩ :=
        wfsWrite_of_room buffer size offset env hpath hbelow (by omega)
      exact ⟨r, w', hexec, by omega⟩
  · rw [if_neg hfits]
    exact iff_of_false (h.holds.not_enospc c) hfits

theorem OnDisk.made (h : w.OnDisk es) {kind mode : UInt32} {pre post : List Entry} {e e' : Entry}
    (hmade : Made w w' es kind path mode env o pre e post e')
    (hfits : w.Fits (w.parentLength o + sizeofInode)) : ∃ es', w'.OnDisk es' := by
  refine ⟨_, hmade.holds, ?_, ?_⟩
  · rw [hmade.state]
    show (UInt32.ofNat (w.head.toNat + w.parentLength o + sizeofInode)).toNat ≤ w.len
    have hlen := hfits.1
    exact (toNat_ofNat_le _).trans (by omega)
  · rw [hmade.state]
    exact h.len_le

/-- A call that fits leaves the log on the disk. -/
theorem OnDisk.next (h : w.OnDisk es) {c : Call} (hc : w.FitsDisk c)
    (hnext : w.next c = some w') : ∃ es', w'.OnDisk es' := by
  obtain ⟨o, hdid⟩ := h.holds.next_did (fun o ho => (hc o ho).2) hnext
  have hfits := hc o hdid.resolves
  cases hdid with
  | made hcreates hmade =>
    rw [hcreates.appended_eq] at hfits
    exact h.made hmade hfits
  | wrote hwrote =>
    refine ⟨_, hwrote.holds, ?_, ?_⟩
    · rw [hwrote.state]
      exact (toNat_ofNat_le _).trans hfits.1
    · rw [hwrote.state]
      exact h.len_le

/-- From a fresh image with room for its root directory, as long as every call fits on the disk the
log stays on it, and whatever call comes next respects the end of the disk exactly if it fits as
well. -/
theorem log_stays_on_disk {image : Image} {w₀ : Wfs} {cs : List Call}
    (hlen : sizeofSb + sizeofInode ≤ image.len) (hmount : mount (mkfs image env) = some w₀)
    (run : Run (guarded FitsDisk (stepOf Wfs.next)) w₀ cs w) :
    w.head.toNat ≤ w.len ∧
      ∀ c o, w.pathToInode c.target = some (some o) → c.NameFits →
        (w.Respects c o ↔ w.head.toNat + c.appended w o ≤ w.len) := by
  have hinv : ∃ es, w.OnDisk es := by
    have hinit := Inv.init hlen hmount
    apply run.invariant (fun u => ∃ es, u.OnDisk es)
      ⟨_, hinit.holds, hinit.head_le, hinit.len_le⟩
    rintro t c u ⟨es, ht⟩ ⟨hc, hstep⟩
    exact ht.next hc hstep
  obtain ⟨es, h⟩ := hinv
  exact ⟨h.head_le, fun c o hpath hname => h.respects_iff hpath hname⟩

/-- The theorem at one page after `wfs_mknod("/a")`, the next call being `wfs_mknod("/b")`. -/
theorem log_stays_on_disk_one_file :
    ∃ w₀ w, mount (mkfs onePage quietEnv) = some w₀ ∧
      Run (guarded FitsDisk (stepOf Wfs.next)) w₀ [.mknod [slash, 97] 0 quietEnv] w ∧
      w.head.toNat ≤ w.len ∧ w.Respects (.mknod [slash, 98] 0 quietEnv) 52 := by
  have hobs : ((mount (mkfs onePage quietEnv)).bind fun w =>
      (w.next (.mknod [slash, 97] 0 quietEnv)).map fun u =>
        (w.pathToInode [slash], u.pathToInode [slash],
          decide (w.Fits (w.parentLength 8 + sizeofInode) ∧
            u.head.toNat + (u.parentLength 52 + sizeofInode) ≤ u.len))) =
      some (some (some 8), some (some 52), true) := by decide +kernel
  obtain ⟨w₀, hmount, hobs⟩ := Option.bind_eq_some_iff.mp hobs
  obtain ⟨w, hnext, hobs⟩ := Option.map_eq_some_iff.mp hobs
  simp only [Prod.mk.injEq, decide_eq_true_eq] at hobs
  obtain ⟨hroot, hroot', hfits, hroom⟩ := hobs
  have hcall : w₀.FitsDisk (.mknod [slash, 97] 0 quietEnv) := by
    intro o ho
    have htarget : w₀.pathToInode (Call.target (.mknod [slash, 97] 0 quietEnv)) =
        some (some 8) := hroot
    rw [htarget, Option.some.injEq, Option.some.injEq] at ho
    exact ho ▸ hfits
  have hrun : Run (guarded FitsDisk (stepOf Wfs.next)) w₀ [.mknod [slash, 97] 0 quietEnv] w :=
    Run.snoc Run.nil ⟨hcall, hnext⟩
  obtain ⟨hhead, hrespects⟩ := log_stays_on_disk (by decide) hmount hrun
  have hname : (basename (cstr [slash, 98])).length + 1 ≤ sizeofDentry := by decide
  exact ⟨w₀, w, hmount, hrun, hhead,
    (hrespects (.mknod [slash, 98] 0 quietEnv) 52 hroot' hname).mpr hroom⟩

/-- A disk of 100 bytes, which holds the root directory. -/
def hundredBytes : Image where
  bytes := fun _ => 0
  len := 100

/-- On it `wfs_mknod("/a")` returns 0 and leaves `wp->head` behind the end of the disk. -/
theorem log_leaves_disk :
    ∃ w₀ w, mount (mkfs hundredBytes quietEnv) = some w₀ ∧ w₀.head.toNat ≤ w₀.len ∧
      w₀.exec (.mknod [slash, 97] 0 quietEnv) = some (0, w) ∧ ¬ w.head.toNat ≤ w.len ∧
      ¬ w₀.Respects (.mknod [slash, 97] 0 quietEnv) 8 := by
  have hobs : ((mount (mkfs hundredBytes quietEnv)).bind fun w =>
      (w.exec (.mknod [slash, 97] 0 quietEnv)).map fun u =>
        (u.1, decide (w.head.toNat ≤ w.len), decide (u.2.head.toNat ≤ u.2.len),
          decide (w.head.toNat + Call.appended w 8 (.mknod [slash, 97] 0 quietEnv) ≤ w.len))) =
      some (0, true, false, false) := by decide +kernel
  obtain ⟨w₀, hmount, hobs⟩ := Option.bind_eq_some_iff.mp hobs
  obtain ⟨⟨r, w⟩, hexec, hobs⟩ := Option.map_eq_some_iff.mp hobs
  simp only [Prod.mk.injEq, decide_eq_true_eq, decide_eq_false_iff_not] at hobs
  obtain ⟨rfl, hbefore, hafter, hno⟩ := hobs
  refine ⟨w₀, w, hmount, hbefore, hexec, hafter, ?_⟩
  unfold Respects
  rw [if_neg hno, hexec]
  intro h
  cases h

end Wfs

end Cs537.P7
