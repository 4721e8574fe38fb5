import Cs537.P7.Inodes

/-!
# Writing over a file

A write at an offset is meant to replace the bytes from there on and to leave the rest of the
file, and every other file, as they are. `wfs_write` builds the new entry from the caller's
buffer alone: it takes `sizeof(buffer) - offset` bytes at most, reads them from `buffer + offset`
and drops the old content. So it overwrites as meant exactly when it replaces the whole file by
at most eight bytes.
-/

namespace Cs537.P7

open Cs537.Lib

/-- The first `size` bytes of a caller's buffer. -/
def bytesOf (buffer : Int → UInt8) (size : Nat) : Bytes :=
  (List.range size).map fun (k : Nat) => buffer k

@[simp] theorem length_bytesOf (buffer : Int → UInt8) (size : Nat) :
    (bytesOf buffer size).length = size := by
  simp [bytesOf]

/-- The content `c` with the bytes `b` written over it from offset `o` on. -/
def overwrite (c b : Bytes) (o : Nat) : Bytes := c.take o ++ b ++ c.drop (o + b.length)

theorem length_overwrite {c b : Bytes} {o : Nat} (ho : o ≤ c.length) :
    (overwrite c b o).length = max c.length (o + b.length) := by
  simp only [overwrite, List.length_append, List.length_take, List.length_drop]
  omega

/-- Overwriting all of a content. -/
theorem overwrite_zero {c b : Bytes} (h : c.length ≤ b.length) : overwrite c b 0 = b := by
  rw [overwrite, Nat.zero_add, List.drop_of_length_le h, List.take_zero, List.nil_append,
    List.append_nil]

namespace Wfs

variable {w w' : Wfs} {es : List Entry} {o : Nat} {path : Bytes} {buffer : Int → UInt8}
  {size : Nat} {env : Env}

theorem writeSize_le (size : Nat) (offset : Int) : writeSize size offset ≤ size := by
  unfold writeSize
  simp only
  split <;> omega

theorem writeSize_zero (size : Nat) : writeSize size 0 = min size 8 := by
  unfold writeSize
  simp only [Int.sub_zero]
  have h8 : ((8 : Int) % 2 ^ 64).toNat = 8 := by decide
  rw [h8]
  split <;> omega

/-- A path that leads to another inode, or to none, shows the same in two states. -/
def OthersKept (w w' : Wfs) (path : Bytes) : Prop :=
  ∀ q, w.Through q → w.numberAt q ≠ w.numberAt path →
    w'.numberAt q = w.numberAt q ∧ (∀ n, w'.wfsRead q n 0 = w.wfsRead q n 0) ∧
      w'.wfsGetattr q = w.wfsGetattr q

/-- `wfs_write` of `size` bytes at offset `start` of a file with content `c` is a positional
overwrite: it returns the number of bytes, the file then reads as the overwritten content, and
nothing else changes. -/
def Overwrites (w : Wfs) (path c : Bytes) (buffer : Int → UInt8) (size start : Nat) (env : Env) :
    Prop :=
  ∃ w', w.wfsWrite path buffer size start env = some ((size : Int), w') ∧
    (∀ n, (overwrite c (bytesOf buffer size) start).length ≤ n →
      w'.wfsRead path n 0 = some (.ok (overwrite c (bytesOf buffer size) start))) ∧
    OthersKept w w' path

section Wrote

variable {offset : Int} {pre post : List Entry} {e e' : Entry}

/-- The file after a write reads as its new entry. -/
theorem Wrote.read_eq (h : w.Sound es) (hpath : w.Through path)
    (hwrote : Wrote w w' es path buffer size offset env o pre e post e')
    (hfile : ¬ e.inode.IsDir) (n : Nat) : w'.wfsRead path n 0 = some (.ok (e'.data.take n)) := by
  have h' := hwrote.sound h hfile
  have hinode := hwrote.inode_eq h.holds
  have he := h.holds.inode_of_found hwrote.found
  have hpath' := throughDirs_of_changed he hfile hinode hpath
  have hwalk := h.walkNumber_of_found hpath hwrote.resolves hwrote.found
  have hnew : w'.inode e.number = some e' := by
    rw [hinode, if_pos rfl]
  have hwalk' := (walkNumber_of_changed he hfile hinode hpath).trans hwalk
  obtain ⟨o', ho', hat⟩ := h'.resolve hpath' hwalk' hnew
  exact h'.read_eq ho' hat n

/-- A write to a file changes nothing that another path shows. -/
theorem Wrote.othersKept (h : w.Sound es) (hpath : w.Through path)
    (hwrote : Wrote w w' es path buffer size offset env o pre e post e')
    (hfile : ¬ e.inode.IsDir) : OthersKept w w' path := by
  have hinode := hwrote.inode_eq h.holds
  have he := h.holds.inode_of_found hwrote.found
  intro q hq hother
  apply h.same_view (hwrote.sound h hfile) hq (throughDirs_of_changed he hfile hinode hq)
    (walkNumber_of_changed he hfile hinode hq)
  intro m hm
  rw [hinode, if_neg]
  rintro rfl
  apply hother
  rw [h.numberAt_eq hq, hm, h.numberAt_eq hpath,
    h.walkNumber_of_found hpath hwrote.resolves hwrote.found]

end Wrote

/-- A write that has room returns. -/
theorem Sound.wfsWrite_returns (h : w.Sound es) (buffer : Int → UInt8) (env : Env) {offset : Int}
    (hresolves : w.pathToInode path = some (some o))
    (hroom : w.Fits (sizeofInode + writeSize size offset)) :
    ∃ w' pre e post e', w.wfsWrite path buffer size offset env =
        some (((writeSize size offset : Int) + 2 ^ 31) % 2 ^ 32 - 2 ^ 31, w') ∧
      Wrote w w' es path buffer size offset env o pre e post e' := by
  obtain ⟨hlen, hwrap⟩ := hroom
  have hmapped := h.len_le
  obtain ⟨pre, e, post, hf⟩ := h.holds.found hresolves
  have hexec := wfsWrite_eq buffer size offset env hresolves (h.holds.below_head hf) (by omega)
  rw [if_pos (by omega)] at hexec
  obtain ⟨-, o', pre', e₁, post', e', hwrote⟩ :=
    h.holds.wfsWrite_returns (.inl (by omega)) hexec
  obtain rfl : o' = o := by simpa [hresolves] using hwrote.resolves.symm
  exact ⟨_, pre', e₁, post', e', hexec, hwrote⟩

/-- In every file system that calls reach from a fresh image, a write to a regular file that has
room on the disk is a positional overwrite if and only if it starts at offset 0, covers the old
content and has at most eight bytes. -/
theorem write_overwrites_iff {image : Image} {env₀ : Env} {w₀ : Wfs} {cs : List Call}
    (hlen : sizeofSb + sizeofInode ≤ image.len) (hmount : mount (mkfs image env₀) = some w₀)
    (run : Run (guarded Ordinary (stepOf Wfs.next)) w₀ cs w)
    (hpath : w.Through path) (hresolves : w.pathToInode path = some (some o))
    (hreg : (inodeAt w.disk o).IsReg) (buffer : Int → UInt8) (size start : Nat)
    (hstart : start ≤ (entryAt w.disk o).data.length) (env : Env)
    (hroom : w.Fits (sizeofInode + max (entryAt w.disk o).data.length (start + size))) :
    w.Overwrites path (entryAt w.disk o).data buffer size start env ↔
      start = 0 ∧ (entryAt w.disk o).data.length ≤ size ∧ size ≤ 8 := by
  obtain ⟨es, h⟩ := sound_of_run hlen hmount run
  have hsize := writeSize_le size start
  have hfits : w.Fits (sizeofInode + writeSize size start) := by
    unfold Fits at hroom ⊢
    omega
  obtain ⟨w', pre, e, post, e', hexec, hwrote⟩ :=
    h.wfsWrite_returns buffer env hresolves hfits
  have hentry := h.holds.entryAt_eq hwrote.found
  have hfile : ¬ e.inode.IsDir := by
    rw [h.holds.inodeAt_eq hwrote.found] at hreg
    intro hdir
    exact absurd (hreg.symm.trans hdir) (by decide)
  have hdata : e'.data.length = writeSize size start := by
    rw [hwrote.data, List.length_map, List.length_range]
  rw [hentry] at hstart ⊢
  have hover := length_overwrite (b := bytesOf buffer size) hstart
  rw [length_bytesOf] at hover
  constructor
  · rintro ⟨u, hwrite, hread, -⟩
    rw [hexec, Option.some.injEq, Prod.mk.injEq] at hwrite
    obtain ⟨-, rfl⟩ := hwrite
    have hall := hread (max (overwrite e.data (bytesOf buffer size) start).length e'.data.length)
      (le_max_left _ _)
    rw [hwrote.read_eq h hpath hfile, List.take_of_length_le (le_max_right _ _)] at hall
    simp only [Option.some.injEq, Except.ok.injEq] at hall
    rw [hall, hover] at hdata
    obtain rfl : start = 0 := by omega
    rw [Nat.cast_zero, writeSize_zero] at hdata
    omega
  · rintro ⟨rfl, hcover, h8⟩
    have hwhole : writeSize size 0 = size := by
      rw [writeSize_zero]
      omega
    have hbytes : e'.data = overwrite e.data (bytesOf buffer size) 0 := by
      rw [overwrite_zero (by rw [length_bytesOf]; exact hcover), hwrote.data, Nat.cast_zero, hwhole]
      simp [bytesOf]
    refine ⟨w', ?_, ?_, hwrote.othersKept h hpath hfile⟩
    · have hresult : ((size : Int) + 2 ^ 31) % 2 ^ 32 - 2 ^ 31 = size := by omega
      rw [hexec, Nat.cast_zero, hwhole, hresult]
    · intro n hn
      rw [hwrote.read_eq h hpath hfile, hbytes, List.take_of_length_le hn]

/-- Three bytes, then others. -/
def abc (i : Int) : UInt8 := if i = 0 then 97 else if i = 1 then 98 else 99

/-- The theorem at a fresh page with the empty file `/a`: writing three bytes at offset 0. -/
theorem write_overwrites_iff_empty_file :
    ∃ w₀ w, mount (mkfs onePage quietEnv) = some w₀ ∧
      Run (guarded Ordinary (stepOf Wfs.next)) w₀ [.mknod [slash, 97] 0 quietEnv] w ∧
      w.Overwrites [slash, 97] [] abc 3 0 quietEnv := by
  have hobs : ((mount (mkfs onePage quietEnv)).bind fun w =>
      (w.next (.mknod [slash, 97] 0 quietEnv)).map fun u =>
        (w.pathToInode (dirname (cstr [slash, 97])), (u.inode 0).map fun e => decide e.inode.IsDir,
          u.pathToInode [slash, 97], (entryAt u.disk 136).data,
          decide (w.head.toNat + w.parentLength 8 + sizeofInode < 2 ^ 32 ∧
            (inodeAt u.disk 136).IsReg ∧ u.Fits (sizeofInode + max 0 (0 + 3))))) =
      some (some (some 8), some true, some (some 136), [], true) := by decide +kernel
  obtain ⟨w₀, hmount, hobs⟩ := Option.bind_eq_some_iff.mp hobs
  obtain ⟨w, hnext, hobs⟩ := Option.map_eq_some_iff.mp hobs
  simp only [Prod.mk.injEq, decide_eq_true_eq] at hobs
  obtain ⟨hroot, hdir, hresolves, hempty, hhead, hreg, hroom⟩ := hobs
  have hcall : w₀.Ordinary (.mknod [slash, 97] 0 quietEnv) := by
    refine ⟨headFits_of_resolves hroot ?_, fun _ _ _ _ _ h => by cases h⟩
    simp only [Call.appended]
    omega
  have hrun : Run (guarded Ordinary (stepOf Wfs.next)) w₀ [.mknod [slash, 97] 0 quietEnv] w :=
    Run.snoc Run.nil ⟨hcall, hnext⟩
  have hpath : w.Through [slash, 97] := by
    have htoks : tokens [slash, 97] = [[97]] := by decide
    unfold Through
    rw [htoks]
    intro e he
    rw [he, Option.map_some, Option.some.injEq, decide_eq_true_eq] at hdir
    exact ⟨hdir, fun _ => trivial⟩
  refine ⟨w₀, w, hmount, hrun, ?_⟩
  have hiff := write_overwrites_iff (by decide) hmount hrun hpath hresolves hreg abc 3 0
    (Nat.zero_le _) quietEnv (by rw [hempty]; exact hroom)
  rw [hempty] at hiff
  exact hiff.mpr ⟨rfl, by decide, by decide⟩

/-- A file `/a` that holds three bytes, then one byte written at offset 0: the call returns 1 and
the other two bytes are gone. -/
theorem write_truncates :
    ∃ w₀ w, mount (mkfs onePage quietEnv) = some w₀ ∧
      Run (stepOf Wfs.next) w₀
        [.mknod [slash, 97] 0 quietEnv, .write [slash, 97] abc 3 0 quietEnv] w ∧
      w.pathToInode [slash, 97] = some (some 180) ∧ (inodeAt w.disk 180).IsReg ∧
      (entryAt w.disk 180).data = [97, 98, 99] ∧ w.Fits (sizeofInode + 3) ∧
      ¬ w.Overwrites [slash, 97] [97, 98, 99] (fun _ => 88) 1 0 quietEnv := by
  have hobs : ((mount (mkfs onePage quietEnv)).bind fun w =>
      (runOf Wfs.next w
        [.mknod [slash, 97] 0 quietEnv, .write [slash, 97] abc 3 0 quietEnv]).bind fun u =>
        (u.wfsWrite [slash, 97] (fun _ => 88) 1 0 quietEnv).map fun v =>
          (u.pathToInode [slash, 97], (entryAt u.disk 180).data,
            decide ((inodeAt u.disk 180).IsReg ∧ u.Fits (sizeofInode + 3)),
            (v.2.wfsRead [slash, 97] 3 0).map Except.toOption)) =
      some (some (some 180), [97, 98, 99], true, some (some [88])) := by decide +kernel
  obtain ⟨w₀, hmount, hobs⟩ := Option.bind_eq_some_iff.mp hobs
  obtain ⟨w, hrun, hobs⟩ := Option.bind_eq_some_iff.mp hobs
  obtain ⟨⟨r, v⟩, hwrite, hobs⟩ := Option.map_eq_some_iff.mp hobs
  simp only [Prod.mk.injEq, decide_eq_true_eq] at hobs
  obtain ⟨hresolves, hdata, ⟨hreg, hroom⟩, hread⟩ := hobs
  refine ⟨w₀, w, hmount, run_of_runOf hrun, hresolves, hreg, hdata, hroom, ?_⟩
  rintro ⟨v', hwrite', hread', -⟩
  rw [Nat.cast_zero, hwrite, Option.some.injEq, Prod.mk.injEq] at hwrite'
  obtain ⟨-, rfl⟩ := hwrite'
  have hbytes : overwrite [97, 98, 99] (bytesOf (fun _ => 88) 1) 0 = [88, 98, 99] := by decide
  rw [hread' 3 (by decide), hbytes] at hread
  exact absurd hread (by decide)

end Wfs

end Cs537.P7
