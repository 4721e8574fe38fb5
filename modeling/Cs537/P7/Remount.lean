import Cs537.P7.LogRuns

/-!
# Unmounting and mounting again

The operations advance `wp->head` in memory only: nothing writes it back to `sb.head`. A second
mount therefore sees the log as long as it was at the first one, but with the `deleted` marks
that were set since. The entry that the first call superseded is then marked and its new
version is out of reach. So the file system shows what it showed before the unmount only if
no call was made.
-/

namespace Cs537.P7

open Cs537.Lib

/-! ## Marked logs -/

namespace Entry

/-- The entry as it was, or with its `deleted` field set. -/
def MaybeMarked (x y : Entry) : Prop := y = x ∨ y = x.marked

variable {x y z : Entry}

theorem MaybeMarked.number_eq (h : MaybeMarked x y) : y.number = x.number := by
  rcases h with rfl | rfl
  · rfl
  · rfl

theorem MaybeMarked.length_eq (h : MaybeMarked x y) : y.length = x.length := by
  rcases h with rfl | rfl
  · rfl
  · rfl

theorem MaybeMarked.trans (h : MaybeMarked x y) (h' : MaybeMarked y z) : MaybeMarked x z := by
  rcases h with rfl | rfl
  · exact h'
  · rcases h' with rfl | rfl
    · exact .inr rfl
    · exact .inr rfl

/-- An entry that is live was not marked. -/
theorem MaybeMarked.eq_of_live (h : MaybeMarked x y) (hlive : y.Live) : y = x := by
  rcases h with rfl | rfl
  · rfl
  · exact absurd hlive x.not_live_marked

end Entry

/-- The entries `es` of a log, some of them marked as deleted. -/
abbrev Marks : List Entry → List Entry → Prop := List.Forall₂ Entry.MaybeMarked

theorem Marks.refl (es : List Entry) : Marks es es :=
  List.forall₂_same.mpr fun _ _ => .inl rfl

theorem Marks.trans {es fs gs : List Entry} (h : Marks es fs) (h' : Marks fs gs) :
    Marks es gs := by
  induction h generalizing gs with
  | nil => exact h'
  | cons hxy _ ih =>
    cases h' with
    | cons hyz htail => exact .cons (hxy.trans hyz) (ih htail)

theorem Marks.logLength_eq {es fs : List Entry} (h : Marks es fs) :
    logLength fs = logLength es := by
  induction h with
  | nil => rfl
  | cons hxy _ ih => rw [logLength_cons, logLength_cons, ih, hxy.length_eq]

/-- Marking one entry. -/
theorem Marks.marked (pre post : List Entry) (e : Entry) :
    Marks (pre ++ e :: post) (pre ++ e.marked :: post) :=
  List.rel_append (Marks.refl pre) (.cons (.inr rfl) (Marks.refl post))

/-- Marks in a longer log are marks in its first part. -/
theorem Marks.split {es more fs : List Entry} (h : Marks (es ++ more) fs) :
    ∃ old new, fs = old ++ new ∧ Marks es old := by
  refine ⟨fs.take es.length, fs.drop es.length, (List.take_append_drop _ _).symm, ?_⟩
  have htake := List.forall₂_take es.length h
  rwa [List.take_left] at htake

namespace Wfs

variable {w w' : Wfs} {es : List Entry} {n : UInt32} {o : Nat}

/-- After marks, an inode has the live entry it had or none. -/
theorem liveOf_of_marks {fs : List Entry} {e : Entry} (hmarks : Marks es fs)
    (he : liveOf fs n = some e) : liveOf es n = some e := by
  rw [liveOf, Option.filter_eq_some_iff] at he
  obtain ⟨hlast, hlive⟩ := he
  rw [decide_eq_true_eq] at hlive
  have hrel := lastOf_rel (R := Entry.MaybeMarked) (fun _ _ h => h.number_eq) hmarks n
  rw [hlast] at hrel
  unfold liveOf
  generalize lastOf Entry.number es n = last at hrel
  cases hrel with
  | some hxy =>
    rw [← hxy.eq_of_live hlive, Option.filter_some, if_pos (by simpa using hlive)]

/-- An inode whose last entry was marked has none. -/
theorem liveOf_marked {pre post : List Entry} {e : Entry}
    (hlast : IsLast Entry.number es n pre e post) :
    liveOf (pre ++ e.marked :: post) n = none := by
  have hmarked : IsLast Entry.number (pre ++ e.marked :: post) n pre e.marked post :=
    ⟨rfl, hlast.key_eq, hlast.after⟩
  rw [liveOf, hmarked.lastOf_eq, Option.filter_some, if_neg]
  simpa using e.not_live_marked

/-! ## One call -/

/-- The path whose inode a call supersedes. -/
def Call.target : Call → Bytes
  | .mknod path _ _ | .mkdir path _ _ => dirname (cstr path)
  | .write path _ _ _ _ => path

/-- What a call does to the log `es` of `w`: the entry `e` at offset `o` is marked, and live
entries are appended, the first of them with the number of `e`. The superblock stays. -/
structure Supersedes (w w' : Wfs) (es : List Entry) (o : Nat) (pre : List Entry) (e : Entry)
    (post : List Entry) (e' : Entry) (more : List Entry) : Prop where
  found : Found es o pre e post
  number_eq : e'.number = e.number
  live : ∀ x ∈ e' :: more, x.Live
  holds : w'.Holds (pre ++ e.marked :: post ++ e' :: more)
  mapped_eq : w'.mapped = w.mapped
  len_eq : w'.len = w.len
  head_le : w'.head.toNat ≤ w'.mapped
  superblock : ∀ a < sizeofSb, w'.disk a = w.disk a

theorem Holds.supersedes_made (h : w.Holds es) (hsmall : w.mapped < 2 ^ 32) {kind mode : UInt32}
    {path : Bytes} {env : Env} {r : Int} (hmake : makeNode kind w path mode env = some (r, w')) :
    ∃ o pre e post e' more, w.pathToInode (dirname (cstr path)) = some (some o) ∧
      Supersedes w w' es o pre e post e' more := by
  obtain ⟨-, o, pre, e, post, e', hmade⟩ := h.makeNode_returns
    (fun _ _ => .inr hsmall) hmake
  obtain ⟨hnumber, hlive⟩ := number_live_of_newParent hmade.inode
  refine ⟨o, pre, e, post, e', _, hmade.resolves, hmade.found, hnumber, ?_, hmade.holds, ?_, ?_, ?_, ?_⟩
  · intro x hx
    rw [List.mem_cons, List.mem_singleton] at hx
    rcases hx with rfl | rfl
    · exact hlive
    · rfl
  · rw [hmade.state]
    rfl
  · rw [hmade.state]
    rfl
  · rw [hmade.state]
    show (UInt32.ofNat (w.head.toNat + w.parentLength o + sizeofInode)).toNat ≤ w.mapped
    rw [toNat_ofNat_of_lt hmade.wrap]
    exact hmade.room
  · intro a ha
    have hhead := h.head_eq
    have ho := hmade.found.offset
    rw [hmade.state]
    show (((w.disk.write _ _).write _ _).write _ _) a = w.disk a
    rw [Mem.write_of_lt (by omega), Mem.write_of_lt (by omega), Mem.write_of_lt (by omega)]

theorem Holds.supersedes_written (h : w.Holds es) (hsmall : w.mapped < 2 ^ 32) {path : Bytes}
    {buffer : Int → UInt8} {size : Nat} {offset : Int} {env : Env} {r : Int}
    (hwrite : w.wfsWrite path buffer size offset env = some (r, w')) :
    ∃ o pre e post e' more, w.pathToInode path = some (some o) ∧
      Supersedes w w' es o pre e post e' more := by
  obtain ⟨-, o, pre, e, post, e', hwrote⟩ := h.wfsWrite_returns (.inr hsmall) hwrite
  obtain ⟨hnumber, hlive⟩ := number_live_of_written hwrote.inode
  refine ⟨o, pre, e, post, e', [], hwrote.resolves, hwrote.found, hnumber, ?_, hwrote.holds, ?_, ?_, ?_,
    ?_⟩
  · intro x hx
    rw [List.mem_singleton] at hx
    subst hx
    exact hlive
  · rw [hwrote.state]
    rfl
  · rw [hwrote.state]
    rfl
  · rw [hwrote.state]
    show (UInt32.ofNat (w.head.toNat + (sizeofInode + writeSize size offset))).toNat ≤ w.mapped
    have hroom := hwrote.room
    have hwrap := hwrote.wrap
    rw [toNat_ofNat_of_lt (by omega)]
    omega
  · intro a ha
    have hhead := h.head_eq
    have ho := hwrote.found.offset
    rw [hwrote.state]
    show ((w.disk.write _ _).write _ _) a = w.disk a
    rw [Mem.write_of_lt (by omega), Mem.write_of_lt (by omega)]

/-- Every call that returns supersedes the entry that its path leads to. -/
theorem Holds.supersedes (h : w.Holds es) (hsmall : w.mapped < 2 ^ 32) {c : Call}
    (hnext : w.next c = some w') :
    ∃ o pre e post e' more, w.pathToInode c.target = some (some o) ∧
      Supersedes w w' es o pre e post e' more := by
  obtain ⟨⟨r, u⟩, hexec, rfl⟩ := Option.map_eq_some_iff.mp hnext
  cases c with
  | mknod path mode env => exact h.supersedes_made hsmall hexec
  | mkdir path mode env => exact h.supersedes_made hsmall hexec
  | write path buffer size offset env => exact h.supersedes_written hsmall hexec

/-- No call leaves an inode without a live entry. -/
theorem Supersedes.inode_isSome {pre post more : List Entry} {e e' : Entry} (h : w.Holds es)
    (hs : Supersedes w w' es o pre e post e' more) (hn : (w.inode n).isSome = true) :
    (w'.inode n).isSome = true := by
  rw [hs.holds.inode_eq, liveOf, List.append_cons, lastOf_append,
    lastOf_supersede e.marked_number hs.number_eq, ← hs.found.last.split]
  rw [h.inode_eq, liveOf] at hn
  cases hmore : lastOf Entry.number more n with
  | some x =>
    have hmem : x ∈ more := List.mem_of_mem_filter (List.mem_of_getLast? hmore)
    have hlive := hs.live x (List.mem_cons_of_mem e' hmem)
    simp [hlive]
  | none =>
    rw [Option.none_or]
    by_cases hnumber : e'.number = n
    · have hlive := hs.live e' List.mem_cons_self
      simp [hnumber, hlive]
    · rw [if_neg hnumber]
      exact hn

/-! ## The second mount -/

/-- A mounted image: less than 4 GiB, its log inside the file, and in every directory each name
ends inside its directory entry. -/
structure Mounted (image : Image) (w : Wfs) (es : List Entry) : Prop where
  mounts : mount image = some w
  small : image.len + 4096 ≤ 2 ^ 32
  holds : w.Holds es
  head_le : w.head.toNat ≤ image.len
  names : ∀ e ∈ es, e.inode.IsDir → Terminated e.data

/-- The log of `w` began as `es`, the log of `w₀`: some entries were marked as deleted and others
appended. The superblock is that of `w₀`. -/
structure GrownFrom (w₀ : Wfs) (es : List Entry) (w : Wfs) : Prop where
  log : ∃ old more, w.Holds (old ++ more) ∧ Marks es old
  mapped_eq : w.mapped = w₀.mapped
  len_eq : w.len = w₀.len
  head_le : w.head.toNat ≤ w.mapped
  superblock : ∀ a < sizeofSb, w.disk a = w₀.disk a

variable {w₀ : Wfs} {image : Image}

theorem GrownFrom.next (h : GrownFrom w₀ es w) (hsmall : w₀.mapped < 2 ^ 32) {c : Call}
    (hnext : w.next c = some w') :
    GrownFrom w₀ es w' ∧ ∀ n, (w.inode n).isSome = true → (w'.inode n).isSome = true := by
  obtain ⟨old, more, hholds, hmarks⟩ := h.log
  obtain ⟨o, pre, e, post, e', news, -, hs⟩ :=
    hholds.supersedes (by rw [h.mapped_eq]; exact hsmall) hnext
  refine ⟨⟨?_, ?_, ?_, hs.head_le, ?_⟩, fun n hn => hs.inode_isSome hholds hn⟩
  · have hmarked := Marks.marked pre post e
    rw [← hs.found.last.split] at hmarked
    obtain ⟨old', new, hsplit, hold⟩ := hmarked.split
    refine ⟨old', new ++ e' :: news, ?_, hmarks.trans hold⟩
    rw [← List.append_assoc, ← hsplit]
    exact hs.holds
  · rw [hs.mapped_eq, h.mapped_eq]
  · rw [hs.len_eq, h.len_eq]
  · intro a ha
    rw [hs.superblock a ha, h.superblock a ha]

/-- What a run keeps: the beginning of the log up to marks, and a live entry for each inode that
had one. -/
theorem GrownFrom.run {u : Wfs} (h : GrownFrom w₀ es u) (hsmall : w₀.mapped < 2 ^ 32)
    {cs : List Call} (run : Run (stepOf Wfs.next) u cs w) :
    GrownFrom w₀ es w ∧ ∀ n, (u.inode n).isSome = true → (w.inode n).isSome = true := by
  apply run.invariant fun v =>
    GrownFrom w₀ es v ∧ ∀ n, (u.inode n).isSome = true → (v.inode n).isSome = true
  · exact ⟨h, fun n hn => hn⟩
  · rintro v c v' ⟨hgrown, hkeep⟩ hstep
    obtain ⟨hgrown', hkeep'⟩ := hgrown.next hsmall hstep
    exact ⟨hgrown', fun n hn => hkeep' n (hkeep n hn)⟩

/-- The parts of a mounted state. -/
theorem mount_eq_some (h : mount image = some w) :
    (∀ a, w.disk a = if a < image.len then image.bytes a else 0) ∧ w.disk.u32 0 = wfsMagic ∧
      w.mapped = (image.len + 4095) / 4096 * 4096 ∧ w.len = image.len ∧
      w.head = w.disk.u32 4 ∧ w.curInodeNum = 100 := by
  simp only [mount] at h
  split at h
  · cases h
  · rename_i hmagic
    cases h
    exact ⟨fun _ => rfl, not_not.mp hmagic, rfl, rfl, rfl, rfl⟩

theorem Mounted.mapped_lt (h : Mounted image w es) : w.mapped < 2 ^ 32 := by
  obtain ⟨-, -, hmapped, -⟩ := mount_eq_some h.mounts
  have := h.small
  omega

/-- The second mount finds the head of the first one, and below it the log with its marks. -/
theorem Mounted.remount {fs : List Entry} (h : Mounted image w₀ es) (hfs : Marks es fs)
    (hgrown : GrownFrom w₀ fs w) :
    ∃ w' old, mount (unmount w) = some w' ∧ w'.Holds old ∧ Marks fs old ∧
      w'.head.toNat ≤ w'.mapped := by
  obtain ⟨old, more, hholds, hold⟩ := hgrown.log
  have hmarks := hfs.trans hold
  obtain ⟨-, hmagic, hmapped, hlen, hhead, -⟩ := mount_eq_some h.mounts
  have hwlen := hgrown.len_eq.trans hlen
  have hstart := h.holds.head_eq
  have hle := h.head_le
  have hs : sizeofSb = 8 := rfl
  have hword {a : Nat} (ha : a + 4 ≤ sizeofSb) :
      Mem.u32 (fun a => if a < (unmount w).len then (unmount w).bytes a else 0) a =
        w₀.disk.u32 a := by
    apply Mem.u32_congr
    intro x h1 h2
    have hx : x < (unmount w).len := by
      show x < w.len
      omega
    rw [if_pos hx]
    exact hgrown.superblock x (by omega)
  have hmount : ∃ w', mount (unmount w) = some w' := by
    unfold mount
    simp only
    rw [hword (by omega), if_neg (not_not.mpr hmagic)]
    exact ⟨_, rfl⟩
  obtain ⟨w', hmount⟩ := hmount
  obtain ⟨hdisk', -, hmapped', -, hhead', -⟩ := mount_eq_some hmount
  have hsame : w'.head = w₀.head := by
    rw [hhead', hhead, funext hdisk', hword (by omega)]
  refine ⟨w', old, hmount, ?_, hold, ?_⟩
  · unfold Holds
    rw [hsame, hstart, ← hmarks.logLength_eq]
    apply (LogIs.append_iff.mp hholds).1.congr
    intro x _ hx
    rw [hmarks.logLength_eq] at hx
    rw [hdisk']
    apply if_pos
    show x < w.len
    omega
  · have hcover : w'.mapped = (w.len + 4095) / 4096 * 4096 := hmapped'
    rw [hsame, hcover]
    omega

/-- Without a call in between, the second mount is the first one. -/
theorem mount_unmount (h : mount image = some w) : mount (unmount w) = some w := by
  obtain ⟨hdisk, hmagic, hmapped, hlen, hhead, hcur⟩ := mount_eq_some h
  have heq : (fun a => if a < (unmount w).len then (unmount w).bytes a else 0) = w.disk := by
    funext a
    show (if a < w.len then w.disk a else 0) = w.disk a
    rw [hdisk a, hlen]
    by_cases ha : a < image.len
    · rw [if_pos ha, if_pos ha]
    · rw [if_neg ha, if_neg ha]
  unfold mount
  simp only [heq]
  rw [if_neg (not_not.mpr hmagic), ← hhead, ← hcur]
  congr 1
  cases w
  simp only at hmapped hlen
  simp only [unmount, hmapped, hlen]

/-! ## What can be seen -/

/-- Every path resolves, reads and lists in `w'` as in `w`. -/
structure SameView (w w' : Wfs) : Prop where
  resolves : ∀ path, (w.pathToInode path).map Option.isSome =
    (w'.pathToInode path).map Option.isSome
  reads : ∀ path size offset, w.wfsRead path size offset = w'.wfsRead path size offset
  lists : ∀ path, w.wfsReaddir path = w'.wfsReaddir path

theorem SameView.refl (w : Wfs) : SameView w w :=
  ⟨fun _ => rfl, fun _ _ _ => rfl, fun _ => rfl⟩

/-- The log entries that the search along a path looks into are directories. -/
def walksDirs (w : Wfs) : Option Nat → List Bytes → Prop
  | some rootLog, tok :: toks =>
    let j := findDentry w.disk (rootLog + sizeofInode) tok (dentries w.disk rootLog) 0
    (inodeAt w.disk rootLog).IsDir ∧ (j ≠ minusOne → walksDirs w (numberToInode w j) toks)
  | _, _ => True

/-- The path of a call goes through directories: the kernel looks every component up before it
hands a call to the file system. -/
def ThroughDirs (w : Wfs) (c : Call) : Prop :=
  walksDirs w (numberToInode w 0) (strtok ((cstr c.target).take 127))

/-- The first components of a path are those of another path. -/
theorem exists_path_take (path : Bytes) (l : Nat) :
    ∃ p, strtok ((cstr p).take 127) = (strtok ((cstr path).take 127)).take l := by
  obtain ⟨j, hj⟩ := exists_strtok_take ((cstr path).take 127) l
  refine ⟨((cstr path).take 127).take j, ?_⟩
  have hfree : (0 : UInt8) ∉ ((cstr path).take 127).take j := fun h =>
    zero_notMem_cstr path (List.mem_of_mem_take (List.mem_of_mem_take h))
  rw [cstr_of_zero_notMem hfree, List.take_of_length_le _, hj]
  rw [List.take_take]
  exact (List.length_take_le _ _).trans (Nat.min_le_right _ _)

/-- A read from an offset inside the content takes what is left of it at most. -/
theorem readSize_of_le {fileSize : UInt32} {offset : Nat} (size : Nat)
    (h : offset ≤ fileSize.toNat) :
    readSize fileSize size offset = min size (fileSize.toNat - offset) := by
  have hlt := fileSize.toNat_lt
  unfold readSize
  simp only
  split <;> omega

/-- Reading a slice of what a path leads to. -/
theorem Holds.read_slice {path : Bytes} {o : Nat} {e : Entry} (h : w.Holds es)
    (hle : w.head.toNat ≤ w.mapped) (hpath : w.pathToInode path = some (some o))
    (hentry : entryAt w.disk o = e) {offset : Nat} (hoffset : offset ≤ e.data.length)
    (size : Nat) : w.wfsRead path size offset = some (.ok ((e.data.drop offset).take size)) := by
  obtain ⟨pre, x, post, hf⟩ := h.found hpath
  obtain rfl : x = e := (h.entryAt_eq hf).symm.trans hentry
  rw [x.fits] at hoffset
  have hroom : o + sizeofInode + x.inode.size.toNat ≤ w.mapped := by
    have hhead := h.head_eq
    have ho := hf.offset
    rw [hf.last.split, logLength_append, logLength_cons] at hhead
    unfold Entry.length at hhead
    omega
  have hslice : w.disk.slice (o + sizeofInode + offset) (x.inode.size.toNat - offset) =
      x.data.drop offset := by
    rw [← slice_data hentry, ← Mem.slice_drop_take w.disk (o + sizeofInode) (n := x.inode.size.toNat)
      (by omega), List.take_of_length_le (by simp)]
  unfold wfsRead
  rw [hpath]
  simp only [h.inodeAt_eq hf, readSize_of_le size hoffset]
  rw [if_pos (by omega), ← Int.natCast_add, Int.toNat_natCast]
  congr 2
  rw [← hslice]
  by_cases hall : x.inode.size.toNat - offset ≤ size
  · rw [Nat.min_eq_right hall, List.take_of_length_le (by simp; omega)]
  · have htake := Mem.slice_drop_take w.disk (o + sizeofInode + offset)
      (show 0 + size ≤ x.inode.size.toNat - offset by omega)
    rw [List.drop_zero, Nat.add_zero] at htake
    rw [Nat.min_eq_left (by omega), htake]

/-- Reading the whole of what a path leads to. -/
theorem Holds.read_all {path : Bytes} {e : Entry} (h : w.Holds es)
    (hle : w.head.toNat ≤ w.mapped) (hpath : w.pathToInode path = some (w.numberToInode n))
    (he : w.inode n = some e) : w.wfsRead path (2 ^ 32) 0 = some (.ok e.data) := by
  obtain ⟨o, ho, hentry⟩ := inode_eq_some he
  have hsize := e.inode.size.toNat_lt
  have hread := h.read_slice hle (hpath.trans (congrArg some ho)) hentry (Nat.zero_le _) (2 ^ 32)
  rw [List.drop_zero, List.take_of_length_le (by rw [e.fits]; omega)] at hread
  exact hread

/-- The search for a name depends on the data only. -/
theorem lookup_congr {e e' : Entry} (h : e.data = e'.data) (tok : Bytes) :
    e.lookup tok = e'.lookup tok := by
  have hsize : e.inode.size.toNat = e'.inode.size.toNat := by
    rw [← e.fits, ← e'.fits, h]
  unfold Entry.lookup Entry.dentries
  rw [h, hsize]

/-- An entry that `number_to_inode` finds has the number asked for. -/
theorem Holds.number_eq {pre post : List Entry} {e : Entry} (h : w.Holds es)
    (hf : Found es o pre e post) (hn : w.numberToInode n = some o) : e.number = n := by
  obtain ⟨pre', x, post', hlast, -, ho⟩ := (numberToInode_eq_some_iff h).mp hn
  have hholds : LogIs w.disk sizeofSb (pre' ++ x :: post') w.head.toNat := hlast.split ▸ h
  have hx : x = e := by
    rw [← h.entryAt_eq hf, ho]
    exact hholds.entry_eq.symm
  rw [← hx]
  exact hlast.key_eq

section Lost

/-- Before the unmount `w` has a live entry for each inode that `w₀` has one for; after it, `w'`
has entries that `w₀` has, but none for the inode `k`. -/
structure Lost (w₀ w w' : Wfs) (k : UInt32) : Prop where
  kept : ∀ n, (w₀.inode n).isSome = true → (w.inode n).isSome = true
  older : ∀ n e, w'.inode n = some e → w₀.inode n = some e
  lost : w'.inode k = none

variable {k : UInt32} {fs gs : List Entry} {path : Bytes}

theorem isSome_numberToInode (w : Wfs) (n : UInt32) :
    (w.numberToInode n).isSome = (w.inode n).isSome := by
  unfold inode
  rw [Option.isSome_map]

/-- A path whose components lead to the inode `n`. -/
theorem pathToInode_of_walk {front : List Bytes} (hpath : strtok ((cstr path).take 127) = front)
    (hw : ∀ r, w.walkPath (w.numberToInode 0) (front ++ r) = w.walkPath (w.numberToInode n) r) :
    w.pathToInode path = some (w.numberToInode n) := by
  rw [pathToInode_eq_walkPath, hpath, ← List.append_nil front, hw, walkPath_nil]

/-- What a path leads to both before and after has the same data, if it reads the same. -/
theorem Lost.same_data {e : Entry} (hlost : Lost w₀ w w' k) (h : w.Holds fs)
    (hle : w.head.toNat ≤ w.mapped) (h' : w'.Holds gs) (hle' : w'.head.toNat ≤ w'.mapped)
    (hview : SameView w w') (hpath : w.pathToInode path = some (w.numberToInode n))
    (hpath' : w'.pathToInode path = some (w'.numberToInode n)) (he : w₀.inode n = some e) :
    w'.inode n = some e ∧ ∃ x, w.inode n = some x ∧ x.data = e.data := by
  obtain ⟨x, hx⟩ := Option.isSome_iff_exists.mp (hlost.kept n (by rw [he]; rfl))
  have hx' : w'.inode n = some e := by
    have hsame := hview.resolves path
    rw [hpath, hpath', Option.map_some, Option.map_some, isSome_numberToInode,
      isSome_numberToInode, hx, Option.some.injEq] at hsame
    obtain ⟨y, hy⟩ := Option.isSome_iff_exists.mp hsame.symm
    rw [hy, ← hlost.older n y hy, he]
  refine ⟨hx', x, hx, ?_⟩
  have hsame := hview.reads path (2 ^ 32) 0
  rw [h.read_all hle hpath hx, h'.read_all hle' hpath' hx'] at hsame
  simpa using hsame

/-- A path to the lost inode gives the loss away: as long as the directories on the way read
the same, the search takes the same way before and after. -/
theorem Lost.not_sameView (hlost : Lost w₀ w w' k) (h₀ : w₀.Holds es)
    (hnames : ∀ e ∈ es, e.inode.IsDir → Terminated e.data) (h : w.Holds fs)
    (hle : w.head.toNat ≤ w.mapped) (h' : w'.Holds gs) (hle' : w'.head.toNat ≤ w'.mapped)
    (hend : ∀ n, w₀.numberToInode n = some o → n = k) (hview : SameView w w')
    {front rest : List Bytes} (hpath : strtok ((cstr path).take 127) = front ++ rest)
    (hw : ∀ r, w.walkPath (w.numberToInode 0) (front ++ r) = w.walkPath (w.numberToInode n) r)
    (hw' : ∀ r, w'.walkPath (w'.numberToInode 0) (front ++ r) =
      w'.walkPath (w'.numberToInode n) r)
    (hdirs : w₀.walksDirs (w₀.numberToInode n) rest)
    (hwalk : w₀.walkPath (w₀.numberToInode n) rest = some (some o)) : False := by
  induction rest generalizing front n with
  | nil =>
    rw [List.append_nil] at hpath
    rw [walkPath_nil, Option.some.injEq] at hwalk
    obtain rfl := hend n hwalk
    have hlive : (w₀.inode n).isSome = true := by
      rw [← isSome_numberToInode, hwalk]
      rfl
    have hsame := hview.resolves path
    rw [pathToInode_of_walk hpath hw, pathToInode_of_walk hpath hw', Option.map_some,
      Option.map_some, isSome_numberToInode, isSome_numberToInode, hlost.kept n hlive, hlost.lost] at hsame
    cases hsame
  | cons tok rest ih =>
    obtain ⟨a, ha⟩ : ∃ a, w₀.numberToInode n = some a := by
      cases hstart : w₀.numberToInode n with
      | none =>
        rw [hstart] at hwalk
        simp [walkPath] at hwalk
      | some a => exact ⟨a, rfl⟩
    have he : w₀.inode n = some (entryAt w₀.disk a) := by
      unfold inode
      rw [ha]
      rfl
    -- a path that leads to the directory reached so far
    obtain ⟨p, hp⟩ := exists_path_take path front.length
    rw [hpath, List.take_left] at hp
    obtain ⟨hx', x, hx, hdata⟩ := hlost.same_data h hle h' hle' hview
      (pathToInode_of_walk hp hw) (pathToInode_of_walk hp hw') he
    -- it is a directory, so the search in it depends on its data only
    have hmem : entryAt w₀.disk a ∈ es := by
      rw [h₀.inode_eq, liveOf, Option.filter_eq_some_iff] at he
      exact List.mem_of_mem_filter (List.mem_of_getLast? he.1)
    rw [ha] at hdirs
    obtain ⟨hdir, hdirs⟩ := hdirs
    have hterm : Terminated (entryAt w₀.disk a).data := hnames _ hmem hdir
    have htok : (0 : UInt8) ∉ tok := by
      intro hzero
      have hin : tok ∈ strtok ((cstr path).take 127) := by
        rw [hpath]
        simp
      exact zero_notMem_cstr path (List.mem_of_mem_take (mem_of_mem_strtok hin hzero))
    rw [walkPath_cons he hterm htok] at hwalk
    split at hwalk
    · cases hwalk
    · rename_i hj
      rw [findDentry_eq rfl hterm htok] at hdirs
      have hpath' : strtok ((cstr path).take 127) = (front ++ [tok]) ++ rest := by
        rw [hpath]
        simp
      apply ih hpath' _ _ (hdirs hj) hwalk
      · intro r
        rw [List.append_assoc, List.singleton_append, hw, walkPath_cons hx (hdata ▸ hterm) htok,
          lookup_congr hdata, if_neg hj]
      · intro r
        rw [List.append_assoc, List.singleton_append, hw', walkPath_cons hx' hterm htok,
          if_neg hj]

end Lost

/-- A fresh image. -/
theorem Mounted.fresh {env : Env} (hlen : sizeofSb + sizeofInode ≤ image.len)
    (hsmall : image.len + 4096 ≤ 2 ^ 32) (hmount : mount (mkfs image env) = some w) :
    Mounted (mkfs image env) w [rootEntry env] := by
  obtain ⟨hholds, -, -, -⟩ := mount_mkfs hlen hmount
  refine ⟨hmount, hsmall, hholds, ?_, ?_⟩
  · rw [hholds.head_eq]
    exact hlen
  · intro e he _
    rw [List.mem_singleton] at he
    subst he
    exact terminated_nil

/-! ## Runs -/

/-- A sequence of calls that begins with one is not seen as it was after the next mount. -/
theorem Mounted.not_sameView {c : Call} {cs : List Call} {u : Wfs} (h : Mounted image w₀ es)
    (hdirs : w₀.ThroughDirs c) (hfirst : w₀.next c = some u) (run : Run (stepOf next) u cs w) :
    ∃ w', mount (unmount w) = some w' ∧ ¬ SameView w w' := by
  have hsmall := h.mapped_lt
  obtain ⟨o, pre, e, post, e', more, hpath, hs⟩ := h.holds.supersedes hsmall hfirst
  have hmarked : Marks es (pre ++ e.marked :: post) := by
    have := Marks.marked pre post e
    rwa [← hs.found.last.split] at this
  have hgrown : GrownFrom w₀ (pre ++ e.marked :: post) u :=
    ⟨⟨_, _, hs.holds, Marks.refl _⟩, hs.mapped_eq, hs.len_eq, hs.head_le, hs.superblock⟩
  obtain ⟨hlast, hkept⟩ := hgrown.run hsmall run
  obtain ⟨old, new, hholds, -⟩ := hlast.log
  obtain ⟨w', fs, hmount, hholds', hmarks, hle'⟩ := h.remount hmarked hlast
  have hlost : Lost w₀ w w' e.number := by
    refine ⟨?_, ?_, ?_⟩
    · intro n hn
      exact hkept n (hs.inode_isSome h.holds hn)
    · intro n x hx
      rw [h.holds.inode_eq]
      rw [hholds'.inode_eq] at hx
      exact liveOf_of_marks (hmarked.trans hmarks) hx
    · rw [hholds'.inode_eq]
      cases hlive : liveOf fs e.number with
      | none => rfl
      | some x =>
        have hnone := liveOf_of_marks hmarks hlive
        rw [liveOf_marked hs.found.last] at hnone
        cases hnone
  refine ⟨w', hmount, fun hview => ?_⟩
  rw [pathToInode_eq_walkPath] at hpath
  exact hlost.not_sameView h.holds h.names hholds hlast.head_le hholds' hle'
    (fun n hn => (h.holds.number_eq hs.found hn).symm) hview
    (List.nil_append _).symm (fun _ => rfl) (fun _ => rfl) hdirs hpath

/-- After a sequence of calls, unmounting and mounting the image again shows the file system as
it was exactly if the sequence was empty. -/
theorem remount_sameView_iff {cs : List Call} (h : Mounted image w₀ es)
    (run : Run (guarded ThroughDirs (stepOf next)) w₀ cs w) :
    ∃ w', mount (unmount w) = some w' ∧ (SameView w w' ↔ cs = []) := by
  rcases run.nil_or_cons with ⟨rfl, rfl⟩ | ⟨c, cs', u, rfl, ⟨hdirs, hfirst⟩, hrest⟩
  · exact ⟨w, mount_unmount h.mounts, iff_of_true (SameView.refl w) rfl⟩
  · obtain ⟨w', hmount, hview⟩ := h.not_sameView hdirs hfirst hrest.of_guarded
    exact ⟨w', hmount, iff_of_false hview (List.cons_ne_nil c cs')⟩

/-- The theorem at one page and one call of `wfs_mknod("/a")`. -/
theorem remount_sameView_iff_one_file :
    ∃ w₀ w w', mount (mkfs onePage quietEnv) = some w₀ ∧
      w₀.next (.mknod [slash, 97] 0 quietEnv) = some w ∧ mount (unmount w) = some w' ∧
      ¬ SameView w w' := by
  have hobs : ((mount (mkfs onePage quietEnv)).bind fun w =>
      w.next (.mknod [slash, 97] 0 quietEnv)).isSome = true := by decide +kernel
  obtain ⟨w, hw⟩ := Option.isSome_iff_exists.mp hobs
  obtain ⟨w₀, hmount, hnext⟩ := Option.bind_eq_some_iff.mp hw
  have hrun : Run (guarded ThroughDirs (stepOf next)) w₀ [.mknod [slash, 97] 0 quietEnv] w := by
    refine Run.snoc Run.nil ⟨?_, hnext⟩
    have htoks : strtok ((cstr (Call.target (.mknod [slash, 97] 0 quietEnv))).take 127) = [] := by
      decide
    unfold ThroughDirs
    rw [htoks]
    cases w₀.numberToInode 0 <;> trivial
  obtain ⟨w', hremount, hiff⟩ := remount_sameView_iff (Mounted.fresh (by decide) (by decide) hmount) hrun
  exact ⟨w₀, w, w', hmount, hnext, hremount, fun hview => by simpa using hiff.mp hview⟩

/-- After `wfs_mknod("/a")` on a fresh image, the second mount does not even find `/`. -/
theorem root_lost_after_remount :
    ∃ w₀ w w', mount (mkfs onePage quietEnv) = some w₀ ∧
      w₀.exec (.mknod [slash, 97] 0 quietEnv) = some (0, w) ∧ mount (unmount w) = some w' ∧
      w.pathToInode [slash] = some (some 52) ∧ w'.pathToInode [slash] = some none ∧
      ¬ SameView w w' := by
  have hobs : ((mount (mkfs onePage quietEnv)).bind fun w =>
      (w.exec (.mknod [slash, 97] 0 quietEnv)).bind fun r =>
        (mount (unmount r.2)).map fun w' =>
          (r.1, r.2.pathToInode [slash], w'.pathToInode [slash])) =
      some (0, some (some 52), some none) := by decide +kernel
  obtain ⟨w₀, hmount, hobs⟩ := Option.bind_eq_some_iff.mp hobs
  obtain ⟨⟨r, w⟩, hexec, hobs⟩ := Option.bind_eq_some_iff.mp hobs
  obtain ⟨w', hremount, hobs⟩ := Option.map_eq_some_iff.mp hobs
  simp only [Prod.mk.injEq] at hobs
  obtain ⟨rfl, hbefore, hafter⟩ := hobs
  refine ⟨w₀, w, w', hmount, hexec, hremount, hbefore, hafter, ?_⟩
  intro hview
  have hsame := hview.resolves [slash]
  rw [hbefore, hafter] at hsame
  cases hsame

end Wfs

end Cs537.P7
