import Cs537.P7.Names
import Cs537.P7.Resolving

/-!
# Directory entries as they are written

`wfs_mknod` and `wfs_mkdir` store the number of the new inode in the new directory entry and copy
the name in front of it afterwards, with its NUL. A name of the maximum length fills its field, and
the NUL takes the place of the lowest byte of the number.
-/

namespace Cs537.P7

open Cs537.Lib

namespace Wfs

variable {w w' : Wfs} {es pre post : List Entry} {o i : Nat} {e : Entry}

/-! ## Decoding -/

/-- The address of the `i`-th directory entry of the directory at offset `o`. -/
def dentryAddr (o i : Nat) : Nat := o + sizeofInode + sizeofDentry * i

/-- What `path_to_inode` and `wfs_readdir` read from the `i`-th directory entry of the directory at
offset `o`: the one name for which `strcmp` returns 0, the inode number, and the string that is
listed. -/
structure Decodes (w : Wfs) (o i : Nat) (name : Bytes) (num : UInt32) : Prop where
  compared : ∀ tok, (0 : UInt8) ∉ tok → (strcmpIs w.disk (dentryAddr o i) tok = true ↔ tok = name)
  number : w.disk.u32 (dentryAddr o i + maxFileNameLen) = num
  listed : w.stringAt (dentryAddr o i) = name

theorem Decodes.number_eq {name : Bytes} {num num' : UInt32} (h : w.Decodes o i name num)
    (h' : w.Decodes o i name num') : num = num' := h.number.symm.trans h'.number

/-- The entry of a log lies inside the mapping. -/
theorem Sound.inside (h : w.Sound es) (hsplit : es = pre ++ e :: post) :
    sizeofSb + logLength pre + sizeofInode + e.inode.size.toNat ≤ w.mapped := by
  have hhead := h.holds.head_eq
  have hle := h.head_le
  rw [hsplit, logLength_append, logLength_cons] at hhead
  unfold Entry.length at hhead
  omega

/-- The directory entries of a directory in a sound log decode to its list of names and numbers. -/
theorem Sound.decodes (h : w.Sound es) (hsplit : es = pre ++ e :: post)
    (ho : o = sizeofSb + logLength pre) (hdir : e.inode.IsDir)
    (hi : i < e.inode.size.toNat / sizeofDentry) :
    w.Decodes o i (dentryName e.data i) (dentryNumber e.data i) := by
  have hholds := h.holds
  unfold Holds at hholds
  rw [hsplit] at hholds
  have hentry : entryAt w.disk o = e := ho ▸ hholds.entry_eq
  have hterm : Terminated e.data := h.names e (by rw [hsplit]; simp) hdir
  constructor
  · intro tok htok
    exact (strcmpIs_dentry_iff hentry hterm hi htok).trans eq_comm
  · exact u32_dentry hentry hi
  · apply stringAt_dentry hentry hterm _ hi
    rw [ho]
    exact h.inside hsplit

/-! ## The new directory entry -/

/-- The number in the new directory entry is the new inode's exactly if the name leaves room for
its NUL, or the byte that the NUL replaces is zero anyway. -/
theorem dentryNumber_newDentry_iff (heap : Mem) (p : Inode) (data : Bytes) (num : UInt32)
    {name : Bytes} (hname : name.length ≤ maxFileNameLen) :
    dentryNumber (newDentry heap p data num name) 0 = num ↔
      name.length < maxFileNameLen ∨ num.toNat % 256 = 0 := by
  by_cases hlt : name.length < maxFileNameLen
  · have hnumber := dentryNumber_eq (newDentry_number heap p data num name hlt)
    exact iff_of_true hnumber (.inl hlt)
  · have hnum := num.toNat_lt
    have htail : leNat (0 :: (le32 num).tail) = 256 * (num.toNat / 256) := by
      show 0 + 256 * leNat (leBytes 3 (num.toNat / 256)) = _
      rw [leNat_leBytes, Nat.mod_eq_of_lt (by omega), Nat.zero_add]
    unfold dentryNumber
    rw [Nat.mul_zero, Nat.zero_add,
      newDentry_number_of_full heap p data num name (by omega), htail,
      ← UInt32.toNat_inj, toNat_ofNat_of_lt (by omega)]
    omega

/-- After the call, the new entry of the parent decodes to what the old one decoded to, and one
more directory entry with the name and the next inode number. -/
structure RoundTrips (w : Wfs) (c : Call) (w' : Wfs) (o : Nat) : Prop where
  parent : (inodeAt w'.disk w.head.toNat).inodeNumber = (inodeAt w.disk o).inodeNumber
  count : dentries w'.disk w.head.toNat = dentries w.disk o + 1
  old : ∀ i < dentries w.disk o, ∃ name num,
    w.Decodes o i name num ∧ w'.Decodes w.head.toNat i name num
  new : w'.Decodes w.head.toNat (dentries w.disk o) (basename (cstr c.path)) (w.curInodeNum + 1)

section Made

variable {kind mode : UInt32} {path : Bytes} {env : Env} {e' : Entry}

/-- What the directory entries of the new entry of the parent decode to. -/
theorem Made.decodes (h : w.Sound es) (hmade : Made w w' es kind path mode env o pre e post e')
    (hdir : e.inode.IsDir) :
    (inodeAt w'.disk w.head.toNat).inodeNumber = e.number ∧
      dentries w'.disk w.head.toNat = dentries w.disk o + 1 ∧
      (∀ i < dentries w.disk o,
        w.Decodes o i (dentryName e.data i) (dentryNumber e.data i) ∧
          w'.Decodes w.head.toNat i (dentryName e.data i) (dentryNumber e.data i)) ∧
      w'.Decodes w.head.toNat (dentries w.disk o) (basename (cstr path))
        (dentryNumber (newDentry env.heap e.inode e.data (w.curInodeNum + 1)
          (basename (cstr path))) 0) := by
  have hs : sizeofDentry = 40 := rfl
  have h' := hmade.sound h
  have hdir' : e'.inode.IsDir := hmade.isDir_iff.mpr hdir
  have hlength := length_newDentry env.heap e.inode e.data (w.curInodeNum + 1)
    (basename (cstr path))
  have hsplit' : pre ++ e.marked :: post ++
      [e', nodeEntry (w.curInodeNum + 1) (kind ||| mode) env] =
      (pre ++ e.marked :: post) ++ e' :: [nodeEntry (w.curInodeNum + 1) (kind ||| mode) env] := rfl
  have hhead : w.head.toNat = sizeofSb + logLength (pre ++ e.marked :: post) := by
    rw [h.holds.head_eq, hmade.found.last.split]
    simp only [logLength_append, logLength_cons, Entry.marked_length]
  obtain ⟨k, hk⟩ := h.sizes e hmade.found.last.mem hdir
  have hcount : dentries w.disk o = k := by
    unfold dentries
    rw [h.holds.inodeAt_eq hmade.found, hk, Nat.mul_div_cancel_left _ (by decide)]
  have hdata : e.data.length = sizeofDentry * k := e.fits.trans hk
  have hsize' : e'.inode.size.toNat = sizeofDentry * (k + 1) := by
    rw [← e'.fits, hmade.data, List.length_append, hdata, hlength, Nat.mul_succ]
  have hinode' : inodeAt w'.disk w.head.toNat = e'.inode := by
    have hholds' := h'.holds
    unfold Holds at hholds'
    rw [hsplit'] at hholds'
    rw [hhead]
    exact congrArg Entry.inode hholds'.entry_eq
  have hcount' : e'.inode.size.toNat / sizeofDentry = k + 1 := by
    rw [hsize', Nat.mul_div_cancel_left _ (by decide)]
  have hdecodes' {i : Nat} (hi : i < k + 1) :=
    h'.decodes hsplit' hhead hdir' (i := i) (by rw [hcount']; exact hi)
  rw [hcount]
  refine ⟨?_, ?_, ?_, ?_⟩
  · rw [hinode']
    exact (number_live_of_newParent hmade.inode).1
  · unfold dentries
    rw [hinode', hcount']
  · intro i hi
    have hinside : sizeofDentry * i + sizeofDentry ≤ e.data.length := by
      rw [hdata, hs]
      omega
    have hnew := hdecodes' (show i < k + 1 by omega)
    rw [hmade.data, dentryName_append_left hinside, dentryNumber_append_left hinside] at hnew
    exact ⟨h.decodes hmade.found.last.split hmade.found.offset hdir
      (by rw [hk, Nat.mul_div_cancel_left _ (by decide)]; exact hi), hnew⟩
  · have hnew := hdecodes' (show k < k + 1 by omega)
    rw [hmade.data, dentryName_append_right hdata, dentryNumber_append_right hdata,
      dentryName_newDentry hmade.name_le (zero_notMem_basename (zero_notMem_cstr path))] at hnew
    exact hnew

end Made

/-- In every directory of a sound log, and whatever inode number is next, the directory entry that
`wfs_mknod` or `wfs_mkdir` writes for a name of up to 32 bytes decodes to this name and number, and
those before it decode as before, if and only if the name has less than 32 bytes or the lowest byte
of the number is zero. -/
theorem dentry_round_trips_iff (h : w.Sound es) {c : Call} (hstep : creating w c w')
    (hparent : w.pathToInode c.target = some (some o)) (hdir : (inodeAt w.disk o).IsDir)
    (hname : (basename (cstr c.path)).length ≤ maxFileNameLen) :
    w.RoundTrips c w' o ↔
      (basename (cstr c.path)).length < maxFileNameLen ∨ (w.curInodeNum + 1).toNat % 256 = 0 := by
  obtain ⟨kind, mode, env, o', pre, e, post, e', hmade, htarget, -⟩ := h.created hstep
  obtain rfl : o' = o := by simpa [hparent] using htarget.symm
  have hinode := h.holds.inodeAt_eq hmade.found
  obtain ⟨hnumber, hcount, hold, hnew⟩ := hmade.decodes h (hinode ▸ hdir)
  rw [← dentryNumber_newDentry_iff env.heap e.inode e.data _ hname]
  constructor
  · intro hround
    exact hnew.number_eq hround.new
  · intro heq
    rw [heq] at hnew
    refine ⟨?_, hcount, fun i hi => ⟨_, _, hold i hi⟩, hnew⟩
    rw [hinode]
    exact hnumber

/-! ## Names of 31 and of 32 bytes -/

/-- The bytes of valid names (`README.md:253`): letters, digits and underscores. -/
def NameByte (b : UInt8) : Prop :=
  97 ≤ b ∧ b ≤ 122 ∨ 65 ≤ b ∧ b ≤ 90 ∨ 48 ≤ b ∧ b ≤ 57 ∨ b = 95

instance : DecidablePred NameByte := fun _ => inferInstanceAs (Decidable (_ ∨ _))

/-- The call `wfs_mknod` of a file in the root directory whose name is `n` times `a`. -/
def mknodAs (n : Nat) : Call := .mknod (slash :: List.replicate n 97) 0 quietEnv

/-- The theorem at a fresh page and a name of 31 bytes. -/
theorem dentry_round_trips_iff_short_name :
    ∃ w₀ w, mount (mkfs onePage quietEnv) = some w₀ ∧ creating w₀ (mknodAs 31) w ∧
      w₀.RoundTrips (mknodAs 31) w 8 := by
  have hobs : ((mount (mkfs onePage quietEnv)).bind fun w =>
      (w.next (mknodAs 31)).map fun _ =>
        decide (w.HeadFits (mknodAs 31) ∧ w.pathToInode (mknodAs 31).target = some (some 8) ∧
          (inodeAt w.disk 8).IsDir)) = some true := by decide +kernel
  obtain ⟨w₀, hmount, hobs⟩ := Option.bind_eq_some_iff.mp hobs
  obtain ⟨w, hnext, hobs⟩ := Option.map_eq_some_iff.mp hobs
  obtain ⟨hfits, hroot, hdir⟩ := of_decide_eq_true hobs
  have hstep : creating w₀ (mknodAs 31) w := ⟨⟨hfits, _, _, _, _, .mknod _ _ _⟩, hnext⟩
  have hsound := Sound.init (by decide) hmount
  exact ⟨w₀, w, hmount, hstep,
    (dentry_round_trips_iff hsound hstep hroot hdir (by decide)).mpr (.inl (by decide))⟩

/-- A file with a name of 32 bytes in a fresh file system gets the number 101, and the directory
entry has the number 0, which is that of the root directory. -/
theorem full_name_loses_number :
    ∃ w₀ w, mount (mkfs onePage quietEnv) = some w₀ ∧ creating w₀ (mknodAs 32) w ∧
      w₀.pathToInode (mknodAs 32).target = some (some 8) ∧ (inodeAt w₀.disk 8).IsDir ∧
      (basename (cstr (mknodAs 32).path)).length = maxFileNameLen ∧
      (∀ b ∈ basename (cstr (mknodAs 32).path), NameByte b) ∧ w₀.curInodeNum + 1 = 101 ∧
      w.disk.u32 (dentryAddr 52 0 + maxFileNameLen) = 0 ∧ ¬ w₀.RoundTrips (mknodAs 32) w 8 := by
  have hobs : ((mount (mkfs onePage quietEnv)).bind fun w =>
      (w.next (mknodAs 32)).map fun u =>
        decide (w.HeadFits (mknodAs 32) ∧ w.pathToInode (mknodAs 32).target = some (some 8) ∧
          (inodeAt w.disk 8).IsDir ∧ w.curInodeNum + 1 = 101 ∧
          u.disk.u32 (dentryAddr 52 0 + maxFileNameLen) = 0 ∧
          u.disk.u32 (dentryAddr w.head.toNat (dentries w.disk 8) + maxFileNameLen) = 0)) =
      some true := by decide +kernel
  obtain ⟨w₀, hmount, hobs⟩ := Option.bind_eq_some_iff.mp hobs
  obtain ⟨w, hnext, hobs⟩ := Option.map_eq_some_iff.mp hobs
  obtain ⟨hfits, hroot, hdir, hcur, hnumber, hdecoded⟩ := of_decide_eq_true hobs
  refine ⟨w₀, w, hmount, ⟨⟨hfits, _, _, _, _, .mknod _ _ _⟩, hnext⟩, hroot, hdir, by decide,
    by decide +kernel, hcur, hnumber, ?_⟩
  intro hround
  have hnum := hround.new.number
  rw [hdecoded, hcur] at hnum
  exact absurd hnum (by decide)

end Wfs

end Cs537.P7
