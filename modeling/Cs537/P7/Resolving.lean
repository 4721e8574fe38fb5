import Cs537.P7.Overwrite

/-!
# Paths and where they lead

`path_to_inode` walks over the components of a copy of the path that ends after 127 bytes, and
follows what `number_to_inode` returns without a test. So it finds what the whole path names as
long as the part that was cut off makes no difference and no inode on the way is missing. Of the
operations, only `wfs_getattr` and `wfs_read` test what it returns before they use it.
-/

namespace Cs537.P7

open Cs537.Lib

namespace Wfs

variable {w w' : Wfs} {es : List Entry} {o : Nat} {path : Bytes} {n m : UInt32}

/-! ## Whole paths -/

/-- All components of a path. -/
def components (path : Bytes) : List Bytes := strtok (cstr path)

/-- The inode that all components of a path lead to, from inode 0 on. -/
def destination (w : Wfs) (path : Bytes) : Option UInt32 :=
  (walkNumber w.inode 0 (components path)).join

/-- `path_to_inode` returns the live entry of that inode, and a null pointer if there is none. -/
def ResolvesWhole (w : Wfs) (path : Bytes) : Prop :=
  w.pathToInode path = some ((w.destination path).bind w.numberToInode)

/-- The components in the first 127 bytes of a path lead where all of its components lead, and do
not lead on from a missing inode. -/
def CutAgrees (w : Wfs) (path : Bytes) : Prop :=
  walkNumber w.inode 0 (tokens path) = some (w.destination path)

instance (w : Wfs) (path : Bytes) : Decidable (w.CutAgrees path) :=
  inferInstanceAs (Decidable (_ = _))

theorem tokens_of_short (h : (cstr path).length ≤ 127) : tokens path = components path := by
  unfold tokens components
  rw [List.take_of_length_le h]

/-- A path of up to 127 bytes is not cut. -/
theorem cutAgrees_of_short (h : (cstr path).length ≤ 127) :
    w.CutAgrees path ↔ walkNumber w.inode 0 (components path) ≠ none := by
  unfold CutAgrees destination
  rw [tokens_of_short h]
  cases walkNumber w.inode 0 (components path) with
  | none => exact iff_of_false (fun h => by cases h) (fun h => h rfl)
  | some found => exact iff_of_true rfl (fun h => by cases h)

/-- Different inodes have different entries. -/
theorem Holds.numberToInode_inj (h : w.Holds es) (hn : w.numberToInode n = some o)
    (hm : w.numberToInode m = some o) : n = m := by
  have hentry {k : UInt32} (hk : w.numberToInode k = some o) : (entryAt w.disk o).number = k := by
    refine (h.mem_of_inode ?_).2.2
    rw [inode, hk, Option.map_some]
  rw [← hentry hn, ← hentry hm]

theorem inode_of_destination (h : w.destination path = some m) : ∃ e, w.inode m = some e := by
  unfold destination at h
  rw [Option.join_eq_some_iff] at h
  exact inode_of_walkNumber h

/-- The entries of two inodes that a walk may end at are the same only if the inodes are. -/
theorem Holds.bind_numberToInode_inj (h : w.Holds es) {a b : Option UInt32}
    (ha : ∀ n, a = some n → ∃ e, w.inode n = some e)
    (hb : ∀ n, b = some n → ∃ e, w.inode n = some e)
    (heq : a.bind w.numberToInode = b.bind w.numberToInode) : a = b := by
  cases a with
  | none =>
    cases b with
    | none => rfl
    | some m =>
      obtain ⟨e, he⟩ := hb m rfl
      obtain ⟨o, ho, -⟩ := inode_eq_some he
      rw [Option.bind_some, ho] at heq
      cases heq
  | some n =>
    obtain ⟨e, he⟩ := ha n rfl
    obtain ⟨o, ho, -⟩ := inode_eq_some he
    rw [Option.bind_some, ho] at heq
    cases b with
    | none => cases heq
    | some m => exact congrArg some (h.numberToInode_inj ho heq.symm)

/-- `path_to_inode` resolves the whole path if and only if cutting it makes no difference. -/
theorem Sound.resolvesWhole_iff (h : w.Sound es) (hpath : w.Through path) :
    w.ResolvesWhole path ↔ w.CutAgrees path := by
  unfold ResolvesWhole CutAgrees
  rw [h.pathToInode_eq hpath]
  constructor
  · intro hwhole
    obtain ⟨found, hwalk, heq⟩ := Option.map_eq_some_iff.mp hwhole
    rw [hwalk]
    refine congrArg some (h.holds.bind_numberToInode_inj ?_ ?_ heq)
    · rintro n rfl
      exact inode_of_walkNumber hwalk
    · intro n hn
      exact inode_of_destination hn
  · intro hagrees
    rw [hagrees, Option.map_some]

/-! ## Missing paths -/

/-- The operations that take a path. -/
inductive Op where
  | getattr (path : Bytes)
  | read (path : Bytes) (size : Nat) (offset : Int)
  | readdir (path : Bytes)
  | change (c : Call)

/-- The path that an operation looks up: that of the parent for `wfs_mknod` and `wfs_mkdir`. -/
def Op.target : Op → Bytes
  | .getattr path | .read path _ _ | .readdir path => path
  | .change c => c.target

/-- The operations that test the pointer before they follow it. -/
def Op.Tests : Op → Prop
  | .getattr _ | .read .. => True
  | .readdir _ | .change _ => False

/-- The operation returns `-ENOENT` and leaves the disk and `wp->head` as they are. The first three
take no state to change; `wfs_readdir` returns 0 if it returns. -/
def ReportsMissing (w : Wfs) : Op → Prop
  | .getattr path => w.wfsGetattr path = some (.error (-enoent))
  | .read path size offset => w.wfsRead path size offset = some (.error (-enoent))
  | .readdir path => (w.wfsReaddir path).map (fun _ => (0 : Int)) = some (-enoent)
  | .change c => ∃ w', w.exec c = some (-enoent, w') ∧ w'.disk = w.disk ∧ w'.head = w.head

/-- A call that returns has followed the pointer. -/
theorem pathToInode_of_exec {c : Call} {r : Int} (h : w.exec c = some (r, w')) :
    ∃ o, w.pathToInode c.target = some (some o) := by
  cases c with
  | mknod path mode env => exact pathToInode_of_makeNode h
  | mkdir path mode env => exact pathToInode_of_makeNode h
  | write path buffer size offset env => exact pathToInode_of_wfsWrite h

/-- The operations that follow the pointer first never report a missing path. -/
theorem Sound.not_reportsMissing (h : w.Sound es) {op : Op} (hop : ¬ op.Tests) :
    ¬ w.ReportsMissing op := by
  cases op with
  | getattr path => exact absurd trivial hop
  | read path size offset => exact absurd trivial hop
  | readdir path =>
    intro hreports
    obtain ⟨_, -, hzero⟩ := Option.map_eq_some_iff.mp hreports
    exact absurd hzero (by decide)
  | change c =>
    rintro ⟨w', hexec, hdisk, -⟩
    cases c with
    | mknod path mode env => exact absurd (makeNode_result hexec) (by decide)
    | mkdir path mode env => exact absurd (makeNode_result hexec) (by decide)
    | write path buffer size offset env => exact h.holds.wfsWrite_changes hexec hdisk

/-- The other two report it if `path_to_inode` returns a null pointer. -/
theorem reportsMissing_iff {op : Op} (hop : op.Tests) :
    w.ReportsMissing op ↔ w.pathToInode op.target = some none := by
  cases op with
  | getattr path =>
    show w.wfsGetattr path = _ ↔ w.pathToInode path = _
    unfold wfsGetattr
    cases hfound : w.pathToInode path with
    | none => exact iff_of_false (fun h => by cases h) (fun h => by cases h)
    | some found =>
      cases found with
      | none => exact iff_of_true rfl rfl
      | some o => exact iff_of_false (fun h => by cases h) (fun h => by cases h)
  | read path size offset =>
    show w.wfsRead path size offset = _ ↔ w.pathToInode path = _
    unfold wfsRead
    cases hfound : w.pathToInode path with
    | none => exact iff_of_false (fun h => by cases h) (fun h => by cases h)
    | some found =>
      cases found with
      | none => exact iff_of_true rfl rfl
      | some o =>
        refine iff_of_false ?_ (fun h => by cases h)
        simp only
        split <;> simp
  | readdir path => exact absurd hop id
  | change c => exact absurd hop id

/-- `path_to_inode` returns a null pointer if and only if the components it looks at end there. -/
theorem Sound.pathToInode_eq_null_iff (h : w.Sound es) (hpath : w.Through path) :
    w.pathToInode path = some none ↔ walkNumber w.inode 0 (tokens path) = some none := by
  rw [h.pathToInode_eq hpath]
  constructor
  · intro hnull
    obtain ⟨found, hwalk, hbind⟩ := Option.map_eq_some_iff.mp hnull
    rw [hwalk]
    refine congrArg some (h.holds.bind_numberToInode_inj ?_ (fun n hn => by cases hn) hbind)
    rintro n rfl
    exact inode_of_walkNumber hwalk
  · intro hwalk
    rw [hwalk]
    rfl

/-! ## Runs -/

/-- In every file system that calls reach from a fresh image, and for every path of whatever length,
`path_to_inode` returns what the whole path leads to if and only if the components in its first 127
bytes lead there without a missing inode on the way. -/
theorem path_to_inode_whole_iff {image : Image} {env : Env} {w₀ : Wfs} {cs : List Call}
    (hlen : sizeofSb + sizeofInode ≤ image.len) (hmount : mount (mkfs image env) = some w₀)
    (run : Run (guarded Ordinary (stepOf Wfs.next)) w₀ cs w) (hpath : w.Through path) :
    w.ResolvesWhole path ↔ w.CutAgrees path := by
  obtain ⟨es, h⟩ := sound_of_run hlen hmount run
  exact h.resolvesWhole_iff hpath

/-- In every file system that calls reach from a fresh image, an operation on a path that leads
nowhere reports this if and only if it is one that tests the pointer and the components in the first
127 bytes of the path lead nowhere, either, without a missing inode on the way. -/
theorem missing_reported_iff {image : Image} {env : Env} {w₀ : Wfs} {cs : List Call}
    (hlen : sizeofSb + sizeofInode ≤ image.len) (hmount : mount (mkfs image env) = some w₀)
    (run : Run (guarded Ordinary (stepOf Wfs.next)) w₀ cs w) {op : Op}
    (hpath : w.Through op.target) :
    (w.destination op.target = none → w.ReportsMissing op) ↔
      w.destination op.target ≠ none ∨
        op.Tests ∧ walkNumber w.inode 0 (tokens op.target) = some none := by
  obtain ⟨es, h⟩ := sound_of_run hlen hmount run
  by_cases hfound : w.destination op.target = none
  · constructor
    · intro hreports
      right
      by_cases hop : op.Tests
      · refine ⟨hop, ?_⟩
        rw [← h.pathToInode_eq_null_iff hpath, ← reportsMissing_iff hop]
        exact hreports hfound
      · exact absurd (hreports hfound) (h.not_reportsMissing hop)
    · rintro (hne | ⟨hop, hnull⟩) _
      · exact absurd hfound hne
      · rw [reportsMissing_iff hop, h.pathToInode_eq_null_iff hpath]
        exact hnull
  · exact ⟨fun _ => .inl hfound, fun _ hnone => absurd hnone hfound⟩

/-! ## Fixed file systems -/

instance decidableThroughDirs (inode : UInt32 → Option Entry) :
    ∀ (n : UInt32) (toks : List Bytes), Decidable (throughDirs inode n toks)
  | _, [] => isTrue trivial
  | n, tok :: toks =>
    match h : inode n with
    | none => isTrue fun e he => by rw [h] at he; cases he
    | some e =>
      have := decidableThroughDirs inode (e.lookup tok) toks
      decidable_of_iff (e.inode.IsDir ∧ (e.lookup tok ≠ minusOne →
        throughDirs inode (e.lookup tok) toks))
        ⟨fun hdir x hx => by rw [h] at hx; cases hx; exact hdir, fun hall => hall e h⟩

instance (w : Wfs) (path : Bytes) : Decidable (w.Through path) :=
  inferInstanceAs (Decidable (throughDirs _ _ _))

instance (w : Wfs) (c : Call) : Decidable (w.HeadFits c) :=
  match h : w.pathToInode c.target with
  | some (some o) => decidable_of_iff (w.head.toNat + c.appended w o < 2 ^ 32)
      ⟨headFits_of_resolves h, fun hfits => hfits o h⟩
  | none | some none => isTrue fun o ho => by rw [h] at ho; cases ho

instance (w : Wfs) : (c : Call) → Decidable (w.Ordinary c)
  | .mknod .. => decidable_of_iff (w.HeadFits _)
      ⟨fun h => ⟨h, fun _ _ _ _ _ heq => by cases heq⟩, And.left⟩
  | .mkdir .. => decidable_of_iff (w.HeadFits _)
      ⟨fun h => ⟨h, fun _ _ _ _ _ heq => by cases heq⟩, And.left⟩
  | .write path .. => decidable_of_iff
      (w.HeadFits _ ∧ ∀ found ∈ w.pathToInode path, ∀ o ∈ found, ¬ (inodeAt w.disk o).IsDir)
      ⟨fun h => ⟨h.1, fun _ _ _ _ _ heq o ho => by cases heq; exact h.2 _ ho o rfl⟩,
        fun h => ⟨h.1, fun _ hfound o ho => by cases ho; exact h.2 _ _ _ _ _ rfl o hfound⟩⟩

/-- A name of 31 bytes. -/
def longName (c : UInt8) : Bytes := List.replicate 31 c

/-- Four directories, one inside the other. The path of the last one has 128 bytes. -/
def nested : List (List Bytes) :=
  [[longName 97], [longName 97, longName 98], [longName 97, longName 98, longName 99],
    [longName 97, longName 98, longName 99, longName 100]]

/-- The calls that make them. -/
def mkNested : List Call := nested.map fun q => .mkdir (pathString q) 0 quietEnv

/-- The path of the last one. -/
def deepPath : Bytes := pathString [longName 97, longName 98, longName 99, longName 100]

theorem nested_run :
    ∃ w₀ w, mount (mkfs onePage quietEnv) = some w₀ ∧
      Run (guarded Ordinary (stepOf Wfs.next)) w₀ mkNested w ∧ w.Through deepPath ∧
      w.destination deepPath = some 104 ∧ w.pathToInode deepPath = some none ∧
      w.Through (dirname deepPath) ∧ w.CutAgrees (dirname deepPath) := by
  have hobs : ((mount (mkfs onePage quietEnv)).bind fun w =>
      (runOf (fun w c => if w.Ordinary c then w.next c else none) w mkNested).map fun u =>
        decide (u.Through deepPath ∧ u.destination deepPath = some 104 ∧
          u.pathToInode deepPath = some none ∧ u.Through (dirname deepPath) ∧
          u.CutAgrees (dirname deepPath))) = some true := by decide +kernel
  obtain ⟨w₀, hmount, hobs⟩ := Option.bind_eq_some_iff.mp hobs
  obtain ⟨w, hrun, hobs⟩ := Option.map_eq_some_iff.mp hobs
  exact ⟨w₀, w, hmount, run_guarded_of_runOf hrun, of_decide_eq_true hobs⟩

/-- The theorem at the third directory, whose path has 96 bytes. -/
theorem path_to_inode_whole_iff_third_directory :
    ∃ w₀ w, mount (mkfs onePage quietEnv) = some w₀ ∧
      Run (guarded Ordinary (stepOf Wfs.next)) w₀ mkNested w ∧
      w.ResolvesWhole (dirname deepPath) := by
  obtain ⟨w₀, w, hmount, hrun, -, -, -, hpath, hagrees⟩ := nested_run
  exact ⟨w₀, w, hmount, hrun, (path_to_inode_whole_iff (by decide) hmount hrun hpath).mpr hagrees⟩

/-- The fourth directory exists, but its path is cut to one that does not. -/
theorem deep_path_not_resolved :
    ¬ ∀ (image : Image) (env : Env) (w₀ w : Wfs) (cs : List Call) (path : Bytes),
      sizeofSb + sizeofInode ≤ image.len → mount (mkfs image env) = some w₀ →
      Run (guarded Ordinary (stepOf Wfs.next)) w₀ cs w → w.Through path →
        w.ResolvesWhole path := by
  intro hall
  obtain ⟨w₀, w, hmount, hrun, hpath, hdestination, hcut, -⟩ := nested_run
  have hwhole := hall onePage quietEnv w₀ w mkNested deepPath (by decide) hmount hrun hpath
  unfold ResolvesWhole at hwhole
  rw [hcut, hdestination, Option.bind_some, Option.some.injEq] at hwhole
  have hdest : (walkNumber w.inode 0 (components deepPath)).join = some 104 := hdestination
  obtain ⟨e, he⟩ := inode_of_destination hdest
  obtain ⟨o, ho, -⟩ := inode_eq_some he
  rw [ho] at hwhole
  cases hwhole

/-- The path `/a`. -/
def pathA : Bytes := [slash, 97]

theorem fresh_pathA :
    ∃ w₀, mount (mkfs onePage quietEnv) = some w₀ ∧ w₀.Through pathA ∧
      w₀.destination pathA = none ∧ w₀.pathToInode pathA = some none ∧
      walkNumber w₀.inode 0 (tokens pathA) = some none := by
  have hobs : (mount (mkfs onePage quietEnv)).map (fun w =>
      decide (w.Through pathA ∧ w.destination pathA = none ∧ w.pathToInode pathA = some none ∧
        walkNumber w.inode 0 (tokens pathA) = some none)) = some true := by decide +kernel
  obtain ⟨w₀, hmount, hobs⟩ := Option.map_eq_some_iff.mp hobs
  exact ⟨w₀, hmount, of_decide_eq_true hobs⟩

/-- The theorem at a fresh image and `wfs_getattr("/a")`. -/
theorem missing_reported_iff_getattr :
    ∃ w₀, mount (mkfs onePage quietEnv) = some w₀ ∧ w₀.ReportsMissing (.getattr pathA) := by
  obtain ⟨w₀, hmount, hpath, hnone, -, hwalk⟩ := fresh_pathA
  have hthrough : w₀.Through (Op.target (.getattr pathA)) := hpath
  exact ⟨w₀, hmount, (missing_reported_iff (by decide) hmount .nil hthrough).mpr
    (.inr ⟨trivial, hwalk⟩) hnone⟩

/-- The call `wfs_write("/a")` of one byte. -/
def writeA : Call := .write pathA (fun _ => 0) 1 0 quietEnv

/-- There, it follows the null pointer. -/
theorem missing_not_reported_by_write :
    ¬ ∀ (image : Image) (env : Env) (w₀ w : Wfs) (cs : List Call) (op : Op),
      sizeofSb + sizeofInode ≤ image.len → mount (mkfs image env) = some w₀ →
      Run (guarded Ordinary (stepOf Wfs.next)) w₀ cs w → w.Through op.target →
        w.destination op.target = none → w.ReportsMissing op := by
  intro hall
  obtain ⟨w₀, hmount, hpath, hnone, hnull, -⟩ := fresh_pathA
  have hreports : w₀.ReportsMissing (.change writeA) :=
    hall onePage quietEnv w₀ w₀ [] (.change writeA) (by decide) hmount .nil hpath hnone
  obtain ⟨w', hexec, -⟩ := hreports
  obtain ⟨o, ho⟩ := pathToInode_of_exec hexec
  rw [show writeA.target = pathA from rfl, hnull] at ho
  cases ho

end Wfs

end Cs537.P7
