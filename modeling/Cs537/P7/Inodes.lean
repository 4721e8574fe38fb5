import Cs537.P7.Remount
import Cs537.P7.Tree

/-!
# The file system as a map of inodes

Behind the log there is a map from inode numbers to their live entries. A path is looked up in
this map, name after name, as long as it leads through directories, and every call that returns
changes the map at one or two numbers. `Sound` is what the log has to be for that; it holds of
every fresh image and is kept by every call that returns, except for a write to a directory.
-/

namespace Cs537.P7

open Cs537.Lib

/-! ## Paths in a map of inodes -/

/-- Looking names up from inode `n` on. The search follows a missing inode, which is a fault, if
there is a name to look up in it. -/
def walkNumber (inode : UInt32 → Option Entry) : UInt32 → List Bytes → Option (Option UInt32)
  | n, [] => some ((inode n).map fun _ => n)
  | n, tok :: toks =>
    (inode n).bind fun e =>
      if e.lookup tok = minusOne then some none else walkNumber inode (e.lookup tok) toks

/-- The inodes that the search looks into are directories. -/
def throughDirs (inode : UInt32 → Option Entry) : UInt32 → List Bytes → Prop
  | _, [] => True
  | n, tok :: toks =>
    ∀ e, inode n = some e → e.inode.IsDir ∧
      (e.lookup tok ≠ minusOne → throughDirs inode (e.lookup tok) toks)

section Map

variable {inode inode' : UInt32 → Option Entry} {k n m : UInt32} {e e' : Entry} {toks : List Bytes}

/-- The search does not notice a change of an inode that is no directory. -/
theorem walkNumber_of_changed (hk : inode k = some e) (hfile : ¬ e.inode.IsDir)
    (hinode : ∀ m, inode' m = if m = k then some e' else inode m)
    (hdirs : throughDirs inode n toks) : walkNumber inode' n toks = walkNumber inode n toks := by
  induction toks generalizing n with
  | nil =>
    rw [walkNumber, walkNumber, hinode]
    by_cases hn : n = k
    · rw [if_pos hn, hn, hk]
      rfl
    · rw [if_neg hn]
  | cons tok toks ih =>
    rw [walkNumber, walkNumber, hinode]
    cases hx : inode n with
    | none =>
      have hn : n ≠ k := by
        rintro rfl
        rw [hk] at hx
        cases hx
      rw [if_neg hn]
      rfl
    | some x =>
      obtain ⟨hdir, hrest⟩ := hdirs x hx
      have hn : n ≠ k := by
        rintro rfl
        rw [hk, Option.some.injEq] at hx
        exact hfile (hx ▸ hdir)
      rw [if_neg hn, Option.bind_some, Option.bind_some]
      by_cases hj : x.lookup tok = minusOne
      · rw [if_pos hj, if_pos hj]
      · rw [if_neg hj, if_neg hj]
        exact ih (hrest hj)

/-- Such a change does not turn directories into something else. -/
theorem throughDirs_of_changed (hk : inode k = some e) (hfile : ¬ e.inode.IsDir)
    (hinode : ∀ m, inode' m = if m = k then some e' else inode m)
    (hdirs : throughDirs inode n toks) : throughDirs inode' n toks := by
  induction toks generalizing n with
  | nil => trivial
  | cons tok toks ih =>
    intro x hx
    rw [hinode] at hx
    by_cases hn : n = k
    · exact absurd (hdirs e (hn ▸ hk)).1 hfile
    · rw [if_neg hn] at hx
      obtain ⟨hdir, hrest⟩ := hdirs x hx
      exact ⟨hdir, fun hj => ih (hrest hj)⟩

/-- A path that exists leads where it led, through directories, when a new inode gets an entry and
another one an entry in which, if it is a directory, every name found before is found as before. -/
theorem walkNumber_of_created {num : UInt32} {new : Entry} (hk : inode k = some e)
    (hnum : inode num = none)
    (hgrow : e.inode.IsDir → e'.inode.IsDir ∧
      ∀ tok, e.lookup tok ≠ minusOne → e'.lookup tok = e.lookup tok)
    (hinode : ∀ m, inode' m = if m = num then some new else if m = k then some e' else inode m)
    (hdirs : throughDirs inode n toks) (hwalk : walkNumber inode n toks = some (some m)) :
    walkNumber inode' n toks = some (some m) ∧ throughDirs inode' n toks := by
  have hne {j : UInt32} {x : Entry} (hx : inode j = some x) : j ≠ num := by
    rintro rfl
    rw [hnum] at hx
    cases hx
  induction toks generalizing n with
  | nil =>
    simp only [walkNumber, Option.some.injEq, Option.map_eq_some_iff, exists_and_right] at hwalk
    obtain ⟨⟨x, hx⟩, rfl⟩ := hwalk
    refine ⟨?_, trivial⟩
    rw [walkNumber, hinode, if_neg (hne hx)]
    by_cases hnk : n = k
    · rw [if_pos hnk]
      rfl
    · rw [if_neg hnk, hx]
      rfl
  | cons tok toks ih =>
    simp only [walkNumber, Option.bind_eq_some_iff] at hwalk
    obtain ⟨x, hx, hrest⟩ := hwalk
    obtain ⟨hdir, hbelow⟩ := hdirs x hx
    split at hrest
    · cases hrest
    · rename_i hj
      obtain ⟨hwalk', hdirs'⟩ := ih (hbelow hj) hrest
      -- the inode that is looked into, as it is now
      have hnow : ∃ y, inode' n = some y ∧ y.inode.IsDir ∧ y.lookup tok = x.lookup tok := by
        rw [hinode, if_neg (hne hx)]
        by_cases hnk : n = k
        · rw [if_pos hnk]
          rw [hnk, hk, Option.some.injEq] at hx
          subst hx
          exact ⟨e', rfl, (hgrow hdir).1, (hgrow hdir).2 tok hj⟩
        · rw [if_neg hnk]
          exact ⟨x, hx, hdir, rfl⟩
      obtain ⟨y, hy, hydir, hlookup⟩ := hnow
      constructor
      · rw [walkNumber, hy, Option.bind_some, hlookup, if_neg hj]
        exact hwalk'
      · intro z hz
        rw [hy, Option.some.injEq] at hz
        subst hz
        rw [hlookup]
        exact ⟨hydir, fun _ => hdirs'⟩

end Map

/-- A further name at the end of a directory hides none of those before it. -/
theorem Entry.lookup_grow {e e' : Entry} {d : Bytes × UInt32}
    (hdentries : e'.dentries = e.dentries ++ [d]) {tok : Bytes} (h : e.lookup tok ≠ minusOne) :
    e'.lookup tok = e.lookup tok := by
  unfold Entry.lookup at h ⊢
  rw [hdentries, List.find?_append]
  cases hfind : e.dentries.find? fun d => decide (d.1 = tok) with
  | none =>
    rw [hfind] at h
    exact absurd rfl h
  | some x => rfl

namespace Wfs

variable {w w' : Wfs} {es : List Entry} {n m : UInt32} {o : Nat} {path : Bytes}

/-! ## Sound logs -/

/-- The disk holds the log `es`, and each directory in it is a row of directory entries whose
names end inside them. -/
structure Sound (w : Wfs) (es : List Entry) : Prop where
  holds : w.Holds es
  sizes : ∀ e ∈ es, e.inode.IsDir → sizeofDentry ∣ e.inode.size.toNat
  names : ∀ e ∈ es, e.inode.IsDir → Terminated e.data
  head_le : w.head.toNat ≤ w.mapped
  len_le : w.len ≤ w.mapped

theorem Sound.init {image : Image} {env : Env} (hlen : sizeofSb + sizeofInode ≤ image.len)
    (hmount : mount (mkfs image env) = some w) : w.Sound [rootEntry env] := by
  have h := Inv.init hlen hmount
  have h1 := h.head_le
  have h2 := h.len_le
  refine ⟨h.holds, ?_, ?_, by omega, h.len_le⟩
  · intro e he _
    rw [List.mem_singleton] at he
    subst he
    exact dvd_zero _
  · intro e he _
    rw [List.mem_singleton] at he
    subst he
    exact terminated_nil

/-- The entry of an inode is in the log, is live and has its number. -/
theorem Holds.mem_of_inode (h : w.Holds es) {e : Entry} (he : w.inode n = some e) :
    e ∈ es ∧ e.Live ∧ e.number = n := by
  rw [h.inode_eq, liveOf, Option.filter_eq_some_iff] at he
  obtain ⟨hlast, hlive⟩ := he
  have hmem := List.mem_of_getLast? hlast
  rw [List.mem_filter] at hmem
  exact ⟨hmem.1, by simpa using hlive, by simpa using hmem.2⟩

/-- The components of a path, as `path_to_inode` sees them. -/
def tokens (path : Bytes) : List Bytes := strtok ((cstr path).take 127)

theorem zero_notMem_of_mem_tokens {tok : Bytes} (h : tok ∈ tokens path) : (0 : UInt8) ∉ tok :=
  fun hzero => zero_notMem_cstr path (List.mem_of_mem_take (mem_of_mem_strtok h hzero))

/-- A path leads through directories as far as it exists. The kernel looks each component up
before it hands the path to the file system. -/
def Through (w : Wfs) (path : Bytes) : Prop := throughDirs w.inode 0 (tokens path)

theorem Sound.walkPath_eq (h : w.Sound es) {toks : List Bytes}
    (htoks : ∀ tok ∈ toks, (0 : UInt8) ∉ tok) (hdirs : throughDirs w.inode n toks) :
    w.walkPath (w.numberToInode n) toks =
      (walkNumber w.inode n toks).map fun found => found.bind w.numberToInode := by
  induction toks generalizing n with
  | nil =>
    rw [walkPath_nil, walkNumber, Option.map_some]
    unfold inode
    cases hn : w.numberToInode n with
    | none => rfl
    | some o => simp [hn]
  | cons tok toks ih =>
    cases hx : w.inode n with
    | none =>
      have hnone : w.numberToInode n = none := by
        unfold inode at hx
        rwa [Option.map_eq_none_iff] at hx
      rw [hnone, walkNumber, hx]
      rfl
    | some x =>
      obtain ⟨hdir, hrest⟩ := hdirs x hx
      have hterm := h.names x (h.holds.mem_of_inode hx).1 hdir
      rw [walkPath_cons hx hterm (htoks tok List.mem_cons_self), walkNumber, hx, Option.bind_some]
      by_cases hj : x.lookup tok = minusOne
      · rw [if_pos hj, if_pos hj]
        rfl
      · rw [if_neg hj, if_neg hj]
        exact ih (fun t ht => htoks t (List.mem_cons_of_mem tok ht)) (hrest hj)

/-- `path_to_inode` looks the path up in the map. -/
theorem Sound.pathToInode_eq (h : w.Sound es) (hpath : w.Through path) :
    w.pathToInode path =
      (walkNumber w.inode 0 (tokens path)).map fun found => found.bind w.numberToInode := by
  rw [pathToInode_eq_walkPath]
  exact h.walkPath_eq (fun _ => zero_notMem_of_mem_tokens) hpath

/-- Whatever the search ends at has an entry. -/
theorem inode_of_walkNumber {inode : UInt32 → Option Entry} {toks : List Bytes}
    (h : walkNumber inode n toks = some (some m)) : ∃ e, inode m = some e := by
  induction toks generalizing n with
  | nil =>
    simp only [walkNumber, Option.some.injEq, Option.map_eq_some_iff, exists_and_right] at h
    obtain ⟨hx, rfl⟩ := h
    exact hx
  | cons tok toks ih =>
    simp only [walkNumber, Option.bind_eq_some_iff] at h
    obtain ⟨x, -, hrest⟩ := h
    split at hrest
    · cases hrest
    · exact ih hrest

/-- The inode number that a path resolves to is the one the search ends at. -/
theorem Sound.numberAt_eq (h : w.Sound es) (hpath : w.Through path) :
    w.numberAt path = walkNumber w.inode 0 (tokens path) := by
  unfold numberAt
  rw [h.pathToInode_eq hpath]
  cases hwalk : walkNumber w.inode 0 (tokens path) with
  | none => rfl
  | some found =>
    cases found with
    | none => rfl
    | some m =>
      obtain ⟨e, he⟩ := inode_of_walkNumber hwalk
      obtain ⟨o, ho, hentry⟩ := inode_eq_some he
      simp only [Option.map_some, Option.bind_some, ho]
      rw [← (h.holds.mem_of_inode he).2.2, ← hentry]
      rfl

/-- A path that resolves leads to the live entry of an inode. -/
theorem Sound.resolve (h : w.Sound es) (hpath : w.Through path) {e : Entry}
    (hwalk : walkNumber w.inode 0 (tokens path) = some (some m)) (he : w.inode m = some e) :
    ∃ o, w.pathToInode path = some (some o) ∧ entryAt w.disk o = e := by
  obtain ⟨o, ho, hentry⟩ := inode_eq_some he
  refine ⟨o, ?_, hentry⟩
  rw [h.pathToInode_eq hpath, hwalk, Option.map_some, Option.bind_some, ho]

/-- What `path_to_inode` finds is the entry of the inode that the search ends at. -/
theorem Sound.walkNumber_of_resolves (h : w.Sound es) (hpath : w.Through path)
    (hresolves : w.pathToInode path = some (some o)) :
    ∃ n, walkNumber w.inode 0 (tokens path) = some (some n) ∧ w.numberToInode n = some o := by
  rw [h.pathToInode_eq hpath, Option.map_eq_some_iff] at hresolves
  obtain ⟨found, hwalk, hfound⟩ := hresolves
  obtain ⟨n, rfl, hn⟩ := Option.bind_eq_some_iff.mp hfound
  exact ⟨n, hwalk, hn⟩

/-- Reading from the start of what a path leads to. -/
theorem Sound.read_eq (h : w.Sound es) {e : Entry} (hresolves : w.pathToInode path = some (some o))
    (hentry : entryAt w.disk o = e) (size : Nat) :
    w.wfsRead path size 0 = some (.ok (e.data.take size)) :=
  h.holds.read_slice h.head_le hresolves hentry (Nat.zero_le _) size

/-- `wfs_getattr` of what a path leads to. -/
theorem getattr_eq {e : Entry} (hresolves : w.pathToInode path = some (some o))
    (hentry : entryAt w.disk o = e) :
    w.wfsGetattr path = some (.ok ⟨e.inode.mode, e.inode.uid, e.inode.gid, e.inode.atime,
      e.inode.mtime, e.inode.size, e.inode.links⟩) := by
  unfold wfsGetattr
  rw [hresolves, ← hentry]
  rfl

/-- A path that leads to the same inode with the same entry, or to none, in two states reads the
same and has the same attributes. -/
theorem Sound.same_view {es' : List Entry} (h : w.Sound es) (h' : w'.Sound es')
    (hpath : w.Through path) (hpath' : w'.Through path)
    (hwalk : walkNumber w'.inode 0 (tokens path) = walkNumber w.inode 0 (tokens path))
    (hentry : ∀ m, walkNumber w.inode 0 (tokens path) = some (some m) → w'.inode m = w.inode m) :
    w'.numberAt path = w.numberAt path ∧
      (∀ size, w'.wfsRead path size 0 = w.wfsRead path size 0) ∧
      w'.wfsGetattr path = w.wfsGetattr path := by
  refine ⟨by rw [h'.numberAt_eq hpath', h.numberAt_eq hpath, hwalk], ?_⟩
  cases hfound : walkNumber w.inode 0 (tokens path) with
  | none =>
    have hnone : w.pathToInode path = none := by
      rw [h.pathToInode_eq hpath, hfound]
      rfl
    have hnone' : w'.pathToInode path = none := by
      rw [h'.pathToInode_eq hpath', hwalk, hfound]
      rfl
    unfold wfsRead wfsGetattr
    rw [hnone, hnone']
    exact ⟨fun _ => rfl, rfl⟩
  | some found =>
    cases found with
    | none =>
      have hnone : w.pathToInode path = some none := by
        rw [h.pathToInode_eq hpath, hfound]
        rfl
      have hnone' : w'.pathToInode path = some none := by
        rw [h'.pathToInode_eq hpath', hwalk, hfound]
        rfl
      unfold wfsRead wfsGetattr
      rw [hnone, hnone']
      exact ⟨fun _ => rfl, rfl⟩
    | some m =>
      obtain ⟨e, he⟩ := inode_of_walkNumber hfound
      obtain ⟨o, ho, hat⟩ := h.resolve hpath hfound he
      obtain ⟨o', ho', hat'⟩ := h'.resolve hpath' (hwalk.trans hfound) ((hentry m hfound).trans he)
      constructor
      · intro size
        rw [h.read_eq ho hat, h'.read_eq ho' hat']
      · rw [getattr_eq ho hat, getattr_eq ho' hat']

/-! ## What a call does to the map -/

theorem Holds.inode_of_found (h : w.Holds es) {pre post : List Entry} {e : Entry}
    (hf : Found es o pre e post) : w.inode e.number = some e := by
  rw [h.inode_eq, liveOf, hf.last.lastOf_eq, Option.filter_some, if_pos]
  simpa using hf.live

/-- The search for a path that resolves ends at the number of the entry found. -/
theorem Sound.walkNumber_of_found (h : w.Sound es) (hpath : w.Through path)
    {pre post : List Entry} {e : Entry} (hresolves : w.pathToInode path = some (some o))
    (hf : Found es o pre e post) : walkNumber w.inode 0 (tokens path) = some (some e.number) := by
  obtain ⟨n, hwalk, hn⟩ := h.walkNumber_of_resolves hpath hresolves
  have hfound : w.inode n = some e := by
    rw [Wfs.inode, hn, Option.map_some, h.holds.entryAt_eq hf]
  rw [hwalk, (h.holds.mem_of_inode hfound).2.2]

/-- The live entries after one was superseded. -/
theorem liveOf_supersede {pre post : List Entry} {e e' : Entry} (hf : Found es o pre e post)
    (hnumber : e'.number = e.number) (hlive : e'.Live) (n : UInt32) :
    liveOf (pre ++ e.marked :: post ++ [e']) n =
      if n = e.number then some e' else liveOf es n := by
  unfold liveOf
  rw [lastOf_supersede e.marked_number hnumber, ← hf.last.split, hnumber]
  by_cases hn : n = e.number
  · rw [if_pos hn.symm, if_pos hn, Option.filter_some, if_pos (by simpa using hlive)]
  · rw [if_neg (Ne.symm hn), if_neg hn]

/-- The live entries after one was appended. -/
theorem liveOf_snoc {x : Entry} (hlive : x.Live) (n : UInt32) :
    liveOf (es ++ [x]) n = if n = x.number then some x else liveOf es n := by
  unfold liveOf
  rw [lastOf_append, lastOf_singleton]
  by_cases hn : n = x.number
  · rw [if_pos hn.symm, if_pos hn, Option.some_or, Option.filter_some,
      if_pos (by simpa using hlive)]
  · rw [if_neg (Ne.symm hn), if_neg hn, Option.none_or]

section Calls

variable {kind mode : UInt32} {env : Env} {pre post : List Entry} {e e' : Entry}

/-- The map after a creation. -/
theorem Made.inode_eq (h : w.Holds es) (hmade : Made w w' es kind path mode env o pre e post e')
    (m : UInt32) :
    w'.inode m =
      if m = w.curInodeNum + 1 then
        some (nodeEntry (w.curInodeNum + 1) (kind ||| mode) env)
      else if m = e.number then some e' else w.inode m := by
  obtain ⟨hnumber, hlive⟩ := number_live_of_newParent hmade.inode
  have hnode : (nodeEntry (w.curInodeNum + 1) (kind ||| mode) env).Live := rfl
  rw [hmade.holds.inode_eq, h.inode_eq, List.append_cons, liveOf_snoc hnode,
    liveOf_supersede hmade.found hnumber hlive]
  rfl

/-- The map after a write. -/
theorem Wrote.inode_eq {buffer : Int → UInt8} {size : Nat} {offset : Int} (h : w.Holds es)
    (hwrote : Wrote w w' es path buffer size offset env o pre e post e') (m : UInt32) :
    w'.inode m = if m = e.number then some e' else w.inode m := by
  obtain ⟨hnumber, hlive⟩ := number_live_of_written hwrote.inode
  rw [hwrote.holds.inode_eq, h.inode_eq, liveOf_supersede hwrote.found hnumber hlive]

/-- The new entry of a directory is one with a further name. -/
theorem Made.dentries_eq (h : w.Sound es)
    (hmade : Made w w' es kind path mode env o pre e post e') (hdir : e.inode.IsDir) :
    ∃ number, e'.dentries = e.dentries ++ [(basename (cstr path), number)] := by
  have hlength := length_newDentry env.heap e.inode e.data (w.curInodeNum + 1)
    (basename (cstr path))
  have hgrow := Entry.dentries_grow hmade.data hlength (h.sizes e hmade.found.last.mem hdir)
  rw [dentryName_newDentry hmade.name_le (zero_notMem_basename (zero_notMem_cstr path))] at hgrow
  exact ⟨_, hgrow⟩

/-- A creation keeps the log sound. -/
theorem Made.sound (h : w.Sound es) (hmade : Made w w' es kind path mode env o pre e post e') :
    w'.Sound (pre ++ e.marked :: post ++
      [e', nodeEntry (w.curInodeNum + 1) (kind ||| mode) env]) := by
  have hmem := hmade.found.last.mem
  have hmode : e'.inode.IsDir → e.inode.IsDir := by
    rw [hmade.inode]
    exact fun hdir => hdir
  have hlength := length_newDentry env.heap e.inode e.data (w.curInodeNum + 1)
    (basename (cstr path))
  have hnew {x : Entry} (hx : x ∈ [e', nodeEntry (w.curInodeNum + 1) (kind ||| mode) env])
      (hdir : x.inode.IsDir) : sizeofDentry ∣ x.inode.size.toNat ∧ Terminated x.data := by
    rw [List.mem_cons, List.mem_singleton] at hx
    rcases hx with rfl | rfl
    · have hdvd := h.sizes e hmem (hmode hdir)
      obtain ⟨rest, hrest⟩ := newDentry_name env.heap e.inode e.data (w.curInodeNum + 1)
        (basename (cstr path)) hmade.name_le
      constructor
      · rw [← x.fits, hmade.data, List.length_append, e.fits, hlength]
        exact Nat.dvd_add hdvd (dvd_refl _)
      · rw [hmade.data]
        apply (h.names e hmem (hmode hdir)).grow hlength
        · rw [e.fits]
          exact hdvd
        · rw [hrest]
          simp
    · exact ⟨dvd_zero _, terminated_nil⟩
  refine ⟨hmade.holds, ?_, ?_, ?_, ?_⟩
  · intro x hx hdir
    rcases hmade.found.mem_superseded hx with hold | rfl | hmore
    · exact h.sizes x hold hdir
    · exact h.sizes e hmem hdir
    · exact (hnew hmore hdir).1
  · intro x hx hdir
    rcases hmade.found.mem_superseded hx with hold | rfl | hmore
    · exact h.names x hold hdir
    · exact h.names e hmem hdir
    · exact (hnew hmore hdir).2
  · rw [hmade.state]
    show (UInt32.ofNat (w.head.toNat + w.parentLength o + sizeofInode)).toNat ≤ w.mapped
    rw [toNat_ofNat_of_lt hmade.wrap]
    exact hmade.room
  · rw [hmade.state]
    exact h.len_le

/-- A write to something that is no directory keeps the log sound. -/
theorem Wrote.sound {buffer : Int → UInt8} {size : Nat} {offset : Int} (h : w.Sound es)
    (hwrote : Wrote w w' es path buffer size offset env o pre e post e')
    (hfile : ¬ e.inode.IsDir) : w'.Sound (pre ++ e.marked :: post ++ [e']) := by
  have hmode : e'.inode.IsDir → e.inode.IsDir := by
    rw [hwrote.inode]
    exact fun hdir => hdir
  have hold {x : Entry} (hx : x ∈ pre ++ e.marked :: post ++ [e']) (hdir : x.inode.IsDir) :
      x ∈ es := by
    rcases hwrote.found.mem_superseded hx with hmem | rfl | hmore
    · exact hmem
    · exact absurd hdir hfile
    · rw [List.mem_singleton.mp hmore] at hdir
      exact absurd (hmode hdir) hfile
  have hroom := hwrote.room
  have hwrap := hwrote.wrap
  refine ⟨hwrote.holds, fun x hx hdir => h.sizes x (hold hx hdir) hdir,
    fun x hx hdir => h.names x (hold hx hdir) hdir, ?_, ?_⟩
  · rw [hwrote.state]
    show (UInt32.ofNat (w.head.toNat + (sizeofInode + writeSize size offset))).toNat ≤ w.mapped
    rw [toNat_ofNat_of_lt (by omega)]
    omega
  · rw [hwrote.state]
    exact h.len_le

end Calls

/-! ## Runs -/

/-- The bytes that a call appends to the log, the entry of its target at offset `o`. -/
def Call.appended (w : Wfs) (o : Nat) : Call → Nat
  | .mknod _ _ _ | .mkdir _ _ _ => w.parentLength o + sizeofInode
  | .write _ _ size offset _ => sizeofInode + writeSize size offset

/-- `wp->head`, a 32-bit number, can point behind what a call appends. On a disk of less than
4 GiB it always can. -/
def HeadFits (w : Wfs) (c : Call) : Prop :=
  ∀ o, w.pathToInode c.target = some (some o) → w.head.toNat + c.appended w o < 2 ^ 32

theorem headFits_of_resolves {c : Call} (hresolves : w.pathToInode c.target = some (some o))
    (hsmall : w.head.toNat + c.appended w o < 2 ^ 32) : w.HeadFits c := by
  intro o' ho'
  rw [hresolves, Option.some.injEq, Option.some.injEq] at ho'
  exact ho' ▸ hsmall

/-- A call of `wfs_mknod` or `wfs_mkdir`. -/
inductive Call.Creates : Call → UInt32 → Bytes → UInt32 → Env → Prop
  | mknod (path : Bytes) (mode : UInt32) (env : Env) :
      Call.Creates (.mknod path mode env) sIfreg path mode env
  | mkdir (path : Bytes) (mode : UInt32) (env : Env) :
      Call.Creates (.mkdir path mode env) sIfdir path mode env

theorem HeadFits.makeNode {c : Call} {kind mode : UInt32} {env : Env} (h : w.HeadFits c)
    (hc : c.Creates kind path mode env) :
    ∀ o, w.pathToInode (dirname (cstr path)) = some (some o) →
      w.head.toNat + w.parentLength o + sizeofInode < 2 ^ 32 ∨ w.mapped < 2 ^ 32 := by
  intro o ho
  left
  cases hc with
  | mknod =>
    have hlt := h o ho
    simp only [Call.appended] at hlt
    omega
  | mkdir =>
    have hlt := h o ho
    simp only [Call.appended] at hlt
    omega

theorem HeadFits.wfsWrite {buffer : Int → UInt8} {size : Nat} {offset : Int} {env : Env}
    (h : w.HeadFits (.write path buffer size offset env))
    (hpath : w.pathToInode path = some (some o)) :
    w.head.toNat + sizeofInode + writeSize size offset < 2 ^ 32 := by
  have hlt := h o hpath
  simp only [Call.appended] at hlt
  omega

/-- A call is one the kernel makes: nothing is written to a directory, and `wp->head` can point
behind the new entries. -/
def Ordinary (w : Wfs) (c : Call) : Prop :=
  w.HeadFits c ∧ ∀ path buffer size offset env, c = .write path buffer size offset env →
    ∀ o, w.pathToInode path = some (some o) → ¬ (inodeAt w.disk o).IsDir

/-- What a call that returned did on a disk with the log `es`, the entry of its target at offset
`o`. -/
inductive Did (w w' : Wfs) (es : List Entry) : Call → Nat → Prop
  | made {c : Call} {kind mode : UInt32} {path : Bytes} {env : Env} {o : Nat}
      {pre post : List Entry} {e e' : Entry} (hcreates : c.Creates kind path mode env)
      (hmade : Made w w' es kind path mode env o pre e post e') : Did w w' es c o
  | wrote {path : Bytes} {buffer : Int → UInt8} {size : Nat} {offset : Int} {env : Env} {o : Nat}
      {pre post : List Entry} {e e' : Entry}
      (hwrote : Wrote w w' es path buffer size offset env o pre e post e') :
      Did w w' es (.write path buffer size offset env) o

theorem Call.Creates.target_eq {c : Call} {kind mode : UInt32} {env : Env}
    (hc : c.Creates kind path mode env) : c.target = dirname (cstr path) := by
  cases hc <;> rfl

theorem Call.Creates.appended_eq {c : Call} {kind mode : UInt32} {env : Env}
    (hc : c.Creates kind path mode env) (w : Wfs) (o : Nat) :
    c.appended w o = w.parentLength o + sizeofInode := by
  cases hc <;> rfl

theorem Did.resolves {c : Call} (h : Did w w' es c o) :
    w.pathToInode c.target = some (some o) := by
  cases h with
  | made hcreates hmade =>
    rw [hcreates.target_eq]
    exact hmade.resolves
  | wrote hwrote => exact hwrote.resolves

/-- A call that returns superseded the entry of its target. -/
theorem Holds.next_did (h : w.Holds es) {c : Call} (hfits : w.HeadFits c)
    (hnext : w.next c = some w') : ∃ o, Did w w' es c o := by
  obtain ⟨⟨r, u⟩, hexec, rfl⟩ := Option.map_eq_some_iff.mp hnext
  cases c with
  | mknod path mode env =>
    obtain ⟨-, o, pre, e, post, e', hmade⟩ :=
      h.makeNode_returns (hfits.makeNode (.mknod path mode env)) hexec
    exact ⟨o, .made (.mknod path mode env) hmade⟩
  | mkdir path mode env =>
    obtain ⟨-, o, pre, e, post, e', hmade⟩ :=
      h.makeNode_returns (hfits.makeNode (.mkdir path mode env)) hexec
    exact ⟨o, .made (.mkdir path mode env) hmade⟩
  | write path buffer size offset env =>
    obtain ⟨o, ho⟩ := pathToInode_of_wfsWrite hexec
    obtain ⟨-, o', pre, e, post, e', hwrote⟩ :=
      h.wfsWrite_returns (.inl (hfits.wfsWrite ho)) hexec
    exact ⟨o', .wrote hwrote⟩

/-- The entry that an ordinary write superseded is not that of a directory. -/
theorem Ordinary.not_isDir {buffer : Int → UInt8} {size : Nat} {offset : Int} {env : Env}
    {pre post : List Entry} {e e' : Entry}
    (hc : w.Ordinary (.write path buffer size offset env)) (h : w.Holds es)
    (hwrote : Wrote w w' es path buffer size offset env o pre e post e') : ¬ e.inode.IsDir := by
  rw [← h.inodeAt_eq hwrote.found]
  exact hc.2 _ _ _ _ _ rfl o hwrote.resolves

theorem Sound.next (h : w.Sound es) {c : Call} (hc : w.Ordinary c) (hnext : w.next c = some w') :
    ∃ es', w'.Sound es' := by
  obtain ⟨o, hdid⟩ := h.holds.next_did hc.1 hnext
  cases hdid with
  | made hcreates hmade => exact ⟨_, hmade.sound h⟩
  | wrote hwrote => exact ⟨_, hwrote.sound h (hc.not_isDir h.holds hwrote)⟩

/-- Every state that ordinary calls reach from a fresh image is sound. -/
theorem sound_of_run {image : Image} {env : Env} {w₀ : Wfs} {cs : List Call}
    (hlen : sizeofSb + sizeofInode ≤ image.len) (hmount : mount (mkfs image env) = some w₀)
    (run : Run (guarded Ordinary (stepOf Wfs.next)) w₀ cs w) : ∃ es, w.Sound es := by
  apply run.invariant (fun u => ∃ es, u.Sound es) ⟨_, Sound.init hlen hmount⟩
  rintro t c u ⟨es, ht⟩ ⟨hc, hstep⟩
  exact ht.next hc hstep

end Wfs

end Cs537.P7
