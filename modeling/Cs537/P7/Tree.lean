import Mathlib.Data.List.Nodup
import Cs537.P7.LogRuns

/-!
# The file system refines a tree of directories

The abstract file system is the list of creations made so far: each adds one path below an
existing directory. The root has inode number 0 and the `i`-th creation number `101 + i`. A
path then resolves to the number of its creation, and a directory lists its children in the
order of their creation. `TreeInv` relates this list to the disk, and every creation keeps it.
-/

namespace Cs537.P7

open Cs537.Lib

/-! ## The abstract tree -/

/-- A call of `wfs_mkdir` or `wfs_mknod`: the directory, the name below it, the kind, and the
other arguments. -/
structure Creation where
  dir : List Bytes
  name : Bytes
  isDir : Bool
  mode : UInt32
  env : Wfs.Env

namespace Creation

/-- The components of the created path. -/
def path (c : Creation) : List Bytes := c.dir ++ [c.name]

/-- The kind of the created inode. -/
def kind (c : Creation) : UInt32 := if c.isDir then sIfdir else sIfreg

/-- The call with the created path as a string. -/
def call (c : Creation) : Wfs.Call :=
  if c.isDir then .mkdir (pathString c.path) c.mode c.env
  else .mknod (pathString c.path) c.mode c.env

theorem exec_call (w : Wfs) (c : Creation) :
    w.exec c.call = w.makeNode c.kind (pathString c.path) c.mode c.env := by
  unfold call kind
  by_cases h : c.isDir = true
  · rw [if_pos h, if_pos h]
    rfl
  · rw [if_neg h, if_neg h]
    rfl

end Creation

/-- The inode number of the `i`-th creation. -/
def nodeNumber (i : Nat) : UInt32 := UInt32.ofNat (101 + i)

/-- The inode number of a path after some creations. -/
def numberOf (cs : List Creation) (q : List Bytes) : Option UInt32 :=
  if q = [] then some 0 else (cs.findIdx? fun c => c.path = q).map nodeNumber

/-- The children of a directory after some creations, with their inode numbers. -/
def children (cs : List Creation) (q : List Bytes) : List (Bytes × UInt32) :=
  (cs.zipIdx.filter fun x => x.1.dir = q).map fun x => (x.1.name, nodeNumber x.2)

theorem numberOf_nil (cs : List Creation) : numberOf cs [] = some 0 := rfl

theorem numberOf_snoc_path (cs : List Creation) (q : List Bytes) (tok : Bytes) :
    numberOf cs (q ++ [tok]) =
      (cs.findIdx? fun c => c.path = q ++ [tok]).map nodeNumber := by
  unfold numberOf
  rw [if_neg (by simp)]

/-- The path of a creation is its directory and its name. -/
theorem Creation.path_eq_iff (c : Creation) (q : List Bytes) (tok : Bytes) :
    c.path = q ++ [tok] ↔ c.dir = q ∧ c.name = tok := by
  unfold Creation.path
  constructor
  · intro h
    obtain ⟨hdir, hname⟩ := List.append_inj' h rfl
    exact ⟨hdir, by simpa using hname⟩
  · rintro ⟨rfl, rfl⟩
    rfl

/-- Looking a name up among the children of a directory gives the number of its path. -/
theorem find?_children (cs : List Creation) (q : List Bytes) (tok : Bytes) :
    ((children cs q).find? fun d => d.1 = tok).map Prod.snd = numberOf cs (q ++ [tok]) := by
  rw [numberOf_snoc_path]
  have hgen (k : Nat) : ((((cs.zipIdx k).filter fun x => x.1.dir = q).map fun x =>
      (x.1.name, nodeNumber x.2)).find? fun d => d.1 = tok).map Prod.snd =
      (cs.findIdx? fun c => c.path = q ++ [tok]).map fun i => nodeNumber (k + i) := by
    induction cs generalizing k with
    | nil => rfl
    | cons c cs ih =>
      rw [List.zipIdx_cons, List.findIdx?_cons]
      by_cases hdir : c.dir = q
      · rw [List.filter_cons_of_pos (by simpa using hdir), List.map_cons, List.find?_cons]
        by_cases hname : c.name = tok
        · have hpath : c.path = q ++ [tok] := (c.path_eq_iff q tok).mpr ⟨hdir, hname⟩
          simp [hname, hpath]
        · have hpath : ¬ c.path = q ++ [tok] := fun h => hname ((c.path_eq_iff q tok).mp h).2
          simp only [hname, hpath, decide_false, ih, Option.map_map, Bool.false_eq_true, if_false]
          congr 1
          funext i
          simp only [Function.comp_apply]
          congr 1
          omega
      · have hpath : ¬ c.path = q ++ [tok] := fun h => hdir ((c.path_eq_iff q tok).mp h).1
        rw [List.filter_cons_of_neg (by simpa using hdir), ih]
        simp only [hpath, decide_false, Bool.false_eq_true, if_false, Option.map_map]
        congr 1
        funext i
        simp only [Function.comp_apply]
        congr 1
        omega
  have h0 := hgen 0
  simp only [Nat.zero_add] at h0
  exact h0

theorem numberOf_eq_some {cs : List Creation} {q : List Bytes} {n : UInt32} (hq : q ≠ [])
    (h : numberOf cs q = some n) :
    ∃ i c, cs[i]? = some c ∧ c.path = q ∧ n = nodeNumber i := by
  unfold numberOf at h
  rw [if_neg hq, Option.map_eq_some_iff] at h
  obtain ⟨i, hi, rfl⟩ := h
  obtain ⟨hlt, hpath, -⟩ := List.findIdx?_eq_some_iff_getElem.mp hi
  exact ⟨i, cs[i], List.getElem?_eq_getElem hlt, by simpa using hpath, rfl⟩

theorem numberOf_isSome_iff (cs : List Creation) (q : List Bytes) :
    (numberOf cs q).isSome = true ↔ q = [] ∨ ∃ c ∈ cs, c.path = q := by
  unfold numberOf
  by_cases hq : q = []
  · simp [hq]
  · simp [hq, List.findIdx?_isSome]

/-- A creation gives its path a number, unless it had one, and no other path. -/
theorem numberOf_snoc (cs : List Creation) (c : Creation) (q : List Bytes) :
    numberOf (cs ++ [c]) q =
      (numberOf cs q).or (if c.path = q then some (nodeNumber cs.length) else none) := by
  by_cases hq : q = []
  · simp [numberOf, hq]
  · unfold numberOf
    rw [if_neg hq, if_neg hq, List.findIdx?_append]
    by_cases hpath : c.path = q
    · cases hfind : cs.findIdx? (fun c => decide (c.path = q)) with
      | none => simp [hpath]
      | some i => simp
    · cases hfind : cs.findIdx? (fun c => decide (c.path = q)) with
      | none => simp [hpath]
      | some i => simp

theorem children_snoc (cs : List Creation) (c : Creation) (q : List Bytes) :
    children (cs ++ [c]) q =
      children cs q ++ if c.dir = q then [(c.name, nodeNumber cs.length)] else [] := by
  unfold children
  rw [List.zipIdx_append, List.filter_append, List.map_append]
  congr 1
  by_cases hdir : c.dir = q <;> simp [hdir]

/-- The names of the children are those of the creations in the directory, in order. -/
theorem children_names (cs : List Creation) (q : List Bytes) :
    (children cs q).map Prod.fst = (cs.filter fun c => c.dir = q).map Creation.name := by
  induction cs using List.reverseRecOn with
  | nil => rfl
  | append_singleton cs c ih =>
    rw [children_snoc, List.map_append, ih, List.filter_append, List.map_append]
    by_cases hdir : c.dir = q <;> simp [hdir]

/-- Every creation is below the root or below an earlier creation. -/
def Closed (cs : List Creation) : Prop := ∀ c ∈ cs, (numberOf cs c.dir).isSome = true

/-- In a closed list, every prefix of a path that exists exists. -/
theorem Closed.isSome_of_append {cs : List Creation} (h : Closed cs) {q : List Bytes}
    (toks : List Bytes) (hq : (numberOf cs (q ++ toks)).isSome = true) :
    (numberOf cs q).isSome = true := by
  induction toks using List.reverseRecOn with
  | nil => simpa using hq
  | append_singleton toks tok ih =>
    apply ih
    rw [← List.append_assoc, numberOf_isSome_iff] at hq
    rcases hq with hnil | ⟨c, hc, hpath⟩
    · simp at hnil
    · rw [c.path_eq_iff] at hpath
      rw [← hpath.1]
      exact h c hc

/-- Different paths have different numbers. -/
theorem numberOf_inj {cs : List Creation} (hlen : 101 + cs.length < 2 ^ 32) {q q' : List Bytes}
    {n : UInt32} (h : numberOf cs q = some n) (h' : numberOf cs q' = some n) : q = q' := by
  have hnumber {i : Nat} {c : Creation} (hi : cs[i]? = some c) :
      (nodeNumber i).toNat = 101 + i := by
    obtain ⟨hlt, -⟩ := List.getElem?_eq_some_iff.mp hi
    unfold nodeNumber
    simp only [UInt32.toNat_ofNat']
    omega
  by_cases hq : q = []
  · by_cases hq' : q' = []
    · rw [hq, hq']
    · obtain ⟨i, c, hi, -, hn⟩ := numberOf_eq_some hq' h'
      have hi' := hnumber hi
      rw [hq, numberOf_nil, hn, Option.some.injEq] at h
      rw [← h] at hi'
      have : (0 : UInt32).toNat = 0 := rfl
      omega
  · obtain ⟨i, c, hi, hpath, hn⟩ := numberOf_eq_some hq h
    have hi' := hnumber hi
    by_cases hq' : q' = []
    · rw [hq', numberOf_nil, hn, Option.some.injEq] at h'
      rw [← h'] at hi'
      have : (0 : UInt32).toNat = 0 := rfl
      omega
    · obtain ⟨j, d, hj, hpath', hn'⟩ := numberOf_eq_some hq' h'
      have hj' := hnumber hj
      have hij : i = j := by
        have := congrArg UInt32.toNat (hn.symm.trans hn')
        omega
      subst hij
      rw [hi, Option.some.injEq] at hj
      rw [← hpath, ← hpath', hj]

/-! ## The disk and the tree -/

namespace Wfs

variable {w w' : Wfs} {es : List Entry} {cs : List Creation} {n : UInt32} {o : Nat}

theorem Inv.inode_eq (h : w.Inv es) (n : UInt32) : w.inode n = lastOf Entry.number es n := by
  rw [h.holds.inode_eq, liveOf]
  rcases isLast_or_notMem Entry.number es n with hnone | ⟨pre, e, post, hlast⟩
  · rw [lastOf_eq_none hnone]
    rfl
  · rw [hlast.lastOf_eq, Option.filter_some, if_pos]
    simpa using h.live.live hlast

/-- The entry of an inode has its number. -/
theorem Inv.number_of_inode (h : w.Inv es) {e : Entry} (he : w.inode n = some e) :
    e.number = n := by
  rw [h.inode_eq] at he
  have hmem : e ∈ es.filter fun x => x.number = n := List.mem_of_getLast? he
  simpa using (List.mem_filter.mp hmem).2

/-- A canonical path that fits into the buffer of `path_to_inode`. -/
structure Canonical (q : List Bytes) : Prop where
  components : ∀ c ∈ q, IsComponent c
  length_le : (pathString q).length ≤ 127

/-- The disk holds the tree of the creations `cs`: the numbers are used up to the last creation,
every path leads to a log entry with exactly the children of the path, and every creation has
its kind. -/
structure TreeInv (w : Wfs) (cs : List Creation) : Prop where
  inv : ∃ es, w.Inv es
  count : w.curInodeNum.toNat = 100 + cs.length
  node : ∀ q n, numberOf cs q = some n →
    ∃ e, w.inode n = some e ∧ e.dentries = children cs q ∧ Terminated e.data
  kind : ∀ i c, cs[i]? = some c →
    ∃ e, w.inode (nodeNumber i) = some e ∧ e.inode.mode &&& sIfmt = c.kind
  root : ∃ e, w.inode 0 = some e ∧ e.inode.IsDir
  closed : Closed cs
  distinct : (cs.map Creation.path).Nodup
  canonical : ∀ c ∈ cs, Canonical c.path

theorem Inv.cur_lt (h : w.Inv es) : w.curInodeNum.toNat < 2 ^ 31 := by
  have hlog := LogIs.length_le h.holds
  have hcount := h.count
  have hhead := w.head.toNat_lt
  have hs : sizeofInode = 44 := rfl
  rw [hs] at hlog
  omega

theorem TreeInv.length_lt (h : w.TreeInv cs) : 100 + cs.length < 2 ^ 31 := by
  obtain ⟨es, hinv⟩ := h.inv
  have := hinv.cur_lt
  have := h.count
  omega

theorem nodeNumber_toNat {i : Nat} (hi : 101 + i < 2 ^ 32) : (nodeNumber i).toNat = 101 + i :=
  toNat_ofNat_of_lt hi

/-- No path has the number that stands for a failed search. -/
theorem TreeInv.ne_minusOne (h : w.TreeInv cs) {q : List Bytes} (hn : numberOf cs q = some n) :
    n ≠ minusOne := by
  have hlen := h.length_lt
  by_cases hq : q = []
  · rw [hq, numberOf_nil, Option.some.injEq] at hn
    rw [← hn]
    decide
  · obtain ⟨i, c, hi, -, rfl⟩ := numberOf_eq_some hq hn
    obtain ⟨hlt, -⟩ := List.getElem?_eq_some_iff.mp hi
    intro heq
    have hnum := nodeNumber_toNat (show 101 + i < 2 ^ 32 by omega)
    rw [heq] at hnum
    have : minusOne.toNat = 2 ^ 32 - 1 := rfl
    omega

/-- Walking on from a path that exists: the walk never follows a null pointer and ends at the
longer path, if that exists. -/
theorem TreeInv.walkPath_eq (h : w.TreeInv cs) {q : List Bytes}
    (hn : numberOf cs q = some n) {toks : List Bytes} (htoks : ∀ t ∈ toks, (0 : UInt8) ∉ t) :
    w.walkPath (w.numberToInode n) toks =
      some ((numberOf cs (q ++ toks)).bind w.numberToInode) := by
  induction toks generalizing q n with
  | nil =>
    rw [List.append_nil, hn, walkPath_nil, Option.bind_some]
  | cons tok toks ih =>
    obtain ⟨e, he, hdentries, hterm⟩ := h.node q n hn
    have hlookup : e.lookup tok = (numberOf cs (q ++ [tok])).getD minusOne := by
      unfold Entry.lookup
      rw [hdentries, find?_children]
    rw [walkPath_cons he hterm (htoks tok List.mem_cons_self), hlookup]
    rw [List.append_cons q tok toks]
    cases hchild : numberOf cs (q ++ [tok]) with
    | none =>
      have hnone : numberOf cs (q ++ [tok] ++ toks) = none := by
        by_contra hsome
        have := h.closed.isSome_of_append toks (Option.isSome_iff_ne_none.mpr hsome)
        rw [hchild] at this
        cases this
      rw [hnone]
      simp
    | some m =>
      rw [Option.getD_some, if_neg (h.ne_minusOne hchild)]
      exact ih hchild fun t ht => htoks t (List.mem_cons_of_mem tok ht)

/-- `path_to_inode` on a canonical path of at most 127 bytes. -/
theorem pathToInode_pathString (w : Wfs) {q : List Bytes} (hq : Canonical q) :
    w.pathToInode (pathString q) = w.walkPath (w.numberToInode 0) q := by
  have hcstr : cstr (pathString q) = pathString q :=
    cstr_of_zero_notMem (zero_notMem_pathString hq.components)
  rw [pathToInode_eq_walkPath, hcstr, List.take_of_length_le hq.length_le,
    strtok_pathString hq.components]

/-- A canonical path resolves exactly when it exists, to the entry of its inode. -/
theorem TreeInv.pathToInode_eq (h : w.TreeInv cs) {q : List Bytes} (hq : Canonical q) :
    w.pathToInode (pathString q) = some ((numberOf cs q).bind w.numberToInode) := by
  rw [pathToInode_pathString w hq,
    h.walkPath_eq (numberOf_nil cs) fun t ht => (hq.components t ht).zero_notMem,
    List.nil_append]

/-! ## Creations -/

/-- The creations that are made: components of 1 to 31 bytes without slash, a path of at most
127 bytes whose parent resolves to a directory and that does not resolve itself, permission
bits only, and room on the disk. -/
structure Creatable (w : Wfs) (c : Creation) : Prop where
  components : ∀ x ∈ c.path, IsComponent x ∧ x.length ≤ 31
  path_le : (pathString c.path).length ≤ 127
  parent : ∃ o, w.pathToInode (pathString c.dir) = some (some o) ∧ (inodeAt w.disk o).IsDir ∧
    w.Fits (w.parentLength o + sizeofInode)
  absent : w.pathToInode (pathString c.path) = some none
  permissions : c.mode &&& sIfmt = 0

/-- The state after one creation. -/
def create (w : Wfs) (c : Creation) : Option Wfs := w.next c.call

theorem Creatable.canonical {c : Creation} (h : w.Creatable c) : Canonical c.path :=
  ⟨fun x hx => (h.components x hx).1, h.path_le⟩

theorem Creatable.name_component {c : Creation} (h : w.Creatable c) :
    IsComponent c.name ∧ c.name.length ≤ 31 := by
  apply h.components
  unfold Creation.path
  simp

/-- The parent path of a creation is canonical too. -/
theorem Creatable.dir_canonical {c : Creation} (h : w.Creatable c) : Canonical c.dir := by
  constructor
  · intro x hx
    apply h.canonical.components
    unfold Creation.path
    simp [hx]
  · have hpath := h.path_le
    unfold Creation.path at hpath
    rw [pathString_snoc, List.length_append] at hpath
    unfold pathString
    by_cases hdir : c.dir = []
    · rw [if_pos hdir]
      decide
    · rw [if_neg hdir]
      omega

/-- The mode of a new inode has the kind it was created with. -/
theorem kind_or_mode {c : Creation} (h : c.mode &&& sIfmt = 0) :
    (c.kind ||| c.mode) &&& sIfmt = c.kind := by
  have hkind : c.kind &&& sIfmt = c.kind := by
    unfold Creation.kind
    cases c.isDir <;> rfl
  have hdistrib : (c.kind ||| c.mode) &&& sIfmt = (c.kind &&& sIfmt) ||| (c.mode &&& sIfmt) :=
    UInt32.toBitVec_inj.1 BitVec.and_or_distrib_right
  rw [hdistrib, h, hkind, UInt32.or_zero]

theorem TreeInv.number_le (h : w.TreeInv cs) {q : List Bytes} (hn : numberOf cs q = some n) :
    n.toNat ≤ w.curInodeNum.toNat := by
  have hlen := h.length_lt
  have hcount := h.count
  by_cases hq : q = []
  · rw [hq, numberOf_nil, Option.some.injEq] at hn
    rw [← hn]
    exact Nat.zero_le _
  · obtain ⟨i, c, hi, -, rfl⟩ := numberOf_eq_some hq hn
    obtain ⟨hlt, -⟩ := List.getElem?_eq_some_iff.mp hi
    rw [nodeNumber_toNat (by omega)]
    omega

/-- The parent of a creation, among the paths. -/
theorem TreeInv.parent_number (h : w.TreeInv cs) {c : Creation} (hc : w.Creatable c)
    (hpath : w.pathToInode (pathString c.dir) = some (some o)) :
    ∃ n, numberOf cs c.dir = some n ∧ w.numberToInode n = some o := by
  rw [h.pathToInode_eq hc.dir_canonical, Option.some.injEq, Option.bind_eq_some_iff] at hpath
  exact hpath

/-- A creation is of a path that does not exist. -/
theorem TreeInv.absent (h : w.TreeInv cs) {c : Creation} (hc : w.Creatable c) :
    numberOf cs c.path = none := by
  have habsent := hc.absent
  rw [h.pathToInode_eq hc.canonical, Option.some.injEq] at habsent
  cases hn : numberOf cs c.path with
  | none => rfl
  | some n =>
    obtain ⟨e, he, -⟩ := h.node c.path n hn
    obtain ⟨o, ho, -⟩ := inode_eq_some he
    rw [hn, Option.bind_some, ho] at habsent
    cases habsent

/-- Nothing lies below a path that does not exist. -/
theorem TreeInv.children_of_absent (h : w.TreeInv cs) {q : List Bytes}
    (hq : numberOf cs q = none) : children cs q = [] := by
  unfold children
  rw [List.map_eq_nil_iff, List.filter_eq_nil_iff]
  rintro ⟨c, i⟩ hmem hdir
  have hc : c ∈ cs := List.fst_mem_of_mem_zipIdx hmem
  have hsome := h.closed c hc
  simp only [decide_eq_true_eq] at hdir
  rw [hdir, hq] at hsome
  cases hsome

/-- What a creation does to the live entries: the new inode has an empty entry, its directory one
with a further name, all others are as before. -/
structure Creates (w w' : Wfs) (c : Creation) (n num : UInt32) (e e' : Entry) : Prop where
  old : w.inode n = some e
  mode : e'.inode.mode = e.inode.mode
  dentries : e'.dentries = e.dentries ++ [(c.name, num)]
  terminated : Terminated e.data → Terminated e'.data
  inode : ∀ m, w'.inode m =
    if m = num then some (nodeEntry num (c.kind ||| c.mode) c.env)
    else if m = n then some e' else w.inode m

/-- A creation succeeds and does so. -/
theorem TreeInv.creates (h : w.TreeInv cs) {c : Creation} (hc : w.Creatable c) :
    ∃ w' n e e', w.exec c.call = some (0, w') ∧ numberOf cs c.dir = some n ∧
      (∃ es', w'.Inv es') ∧ w'.curInodeNum = w.curInodeNum + 1 ∧
      Creates w w' c n (w.curInodeNum + 1) e e' := by
  obtain ⟨es, hinv⟩ := h.inv
  obtain ⟨o, hpath, hdir, hfits⟩ := hc.parent
  obtain ⟨hname, hname31⟩ := hc.name_component
  obtain ⟨n, hn, ho⟩ := h.parent_number hc hpath
  have hcstr : cstr (pathString c.path) = pathString c.path :=
    cstr_of_zero_notMem (zero_notMem_pathString hc.canonical.components)
  have hdirname : dirname (cstr (pathString c.path)) = pathString c.dir := by
    rw [hcstr]
    exact dirname_pathString hc.dir_canonical.components hname
  have hbasename : basename (cstr (pathString c.path)) = c.name := by
    rw [hcstr]
    exact basename_pathString hname
  obtain ⟨hmade, pre, e, post, e', hf, hinode, hdata, hinv'⟩ :=
    hinv.made c.kind (pathString c.path) c.mode c.env (by rw [hdirname]; exact hpath) hdir
      (by rw [hbasename]; exact hname31) hfits
  rw [hbasename] at hdata
  have hold : w.inode n = some e := by
    unfold Wfs.inode
    rw [ho, Option.map_some, hinv.holds.entryAt_eq hf]
  have hnumber : e.number = n := hinv.number_of_inode hold
  have hdvd : sizeofDentry ∣ e.inode.size.toNat := by
    rw [hinv.holds.inodeAt_eq hf] at hdir
    exact (hinv.dirs e hf.last.mem hf.live hdir).size_dvd
  obtain ⟨rest, hrest⟩ := newDentry_name c.env.heap e.inode e.data (w.curInodeNum + 1) c.name
    (by unfold sizeofDentry; omega)
  have hlength := length_newDentry c.env.heap e.inode e.data (w.curInodeNum + 1) c.name
  refine ⟨_, n, e, e', c.exec_call w ▸ hmade, hn, ⟨_, hinv'⟩, rfl, hold, ?_, ?_, ?_, ?_⟩
  · rw [hinode]
    rfl
  · rw [Entry.dentries_grow hdata hlength hdvd,
      dentryNumber_eq (newDentry_number c.env.heap e.inode e.data (w.curInodeNum + 1) c.name
        (by unfold maxFileNameLen; omega)),
      dentryName_newDentry (by unfold sizeofDentry; omega) hname.zero_notMem]
  · intro hterm
    rw [hdata]
    apply hterm.grow hlength
    · rw [e.fits]
      exact hdvd
    · rw [hrest]
      simp
  · intro m
    have hnumber' : e'.number = e.number := (number_live_of_newParent hinode).1
    rw [hinv'.inode_eq, hinv.inode_eq, List.append_cons, lastOf_append, lastOf_singleton,
      lastOf_supersede e.marked_number hnumber', hnumber', hnumber, hf.last.split]
    have hnode : (nodeEntry (w.curInodeNum + 1) (c.kind ||| c.mode) c.env).number =
        w.curInodeNum + 1 := rfl
    rw [hnode]
    by_cases hm : m = w.curInodeNum + 1
    · rw [if_pos hm, if_pos hm.symm, Option.some_or]
    · rw [if_neg hm, if_neg (Ne.symm hm), Option.none_or]
      by_cases hmn : m = n
      · rw [if_pos hmn, if_pos hmn.symm]
      · rw [if_neg hmn, if_neg (Ne.symm hmn)]

/-- Inodes other than the new one keep their mode. -/
theorem Creates.mode_kept {c : Creation} {n num m : UInt32} {e e' x : Entry}
    (h : Creates w w' c n num e e') (hm : m ≠ num) (hx : w.inode m = some x) :
    ∃ x', w'.inode m = some x' ∧ x'.inode.mode = x.inode.mode := by
  rw [h.inode, if_neg hm]
  by_cases hmn : m = n
  · rw [if_pos hmn]
    rw [hmn, h.old, Option.some.injEq] at hx
    exact ⟨e', rfl, hx ▸ h.mode⟩
  · rw [if_neg hmn]
    exact ⟨x, hx, rfl⟩

section Create

variable {c : Creation} {e e' : Entry}

/-- The next inode number is that of the next creation. -/
theorem TreeInv.succ_eq (h : w.TreeInv cs) : w.curInodeNum + 1 = nodeNumber cs.length := by
  obtain ⟨es, hinv⟩ := h.inv
  have hlen := h.length_lt
  have hcount := h.count
  apply UInt32.toNat_inj.mp
  rw [hinv.succ_toNat, nodeNumber_toNat (by omega)]
  omega

/-- No path has the next inode number. -/
theorem TreeInv.ne_succ (h : w.TreeInv cs) {q : List Bytes} (hn : numberOf cs q = some n) :
    n ≠ w.curInodeNum + 1 := by
  obtain ⟨es, hinv⟩ := h.inv
  have hle := h.number_le hn
  intro heq
  rw [heq, hinv.succ_toNat] at hle
  omega

theorem Closed.snoc (h : Closed cs) (hdir : (numberOf cs c.dir).isSome = true) :
    Closed (cs ++ [c]) := by
  intro d hd
  rw [numberOf_snoc, Option.isSome_or, Bool.or_eq_true]
  left
  rw [List.mem_append, List.mem_singleton] at hd
  rcases hd with hd | rfl
  · exact h d hd
  · exact hdir

/-- The paths stay distinct. -/
theorem nodup_snoc (h : (cs.map Creation.path).Nodup) (habsent : numberOf cs c.path = none) :
    ((cs ++ [c]).map Creation.path).Nodup := by
  rw [List.map_append, List.map_singleton, List.nodup_append]
  refine ⟨h, by simp, ?_⟩
  intro p hp q hq heq
  rw [List.mem_singleton] at hq
  obtain ⟨d, hd, rfl⟩ := List.mem_map.mp hp
  have hsome := (numberOf_isSome_iff cs c.path).mpr (.inr ⟨d, hd, heq.trans hq⟩)
  rw [habsent] at hsome
  cases hsome

/-- Every path leads to an entry with its children, the new one among them. -/
theorem TreeInv.node_snoc (h : w.TreeInv cs) (habsent : numberOf cs c.path = none)
    (hn : numberOf cs c.dir = some n) (hcreates : Creates w w' c n (w.curInodeNum + 1) e e')
    (q : List Bytes) (m : UInt32) (hm : numberOf (cs ++ [c]) q = some m) :
    ∃ x, w'.inode m = some x ∧ x.dentries = children (cs ++ [c]) q ∧ Terminated x.data := by
  have hlen := h.length_lt
  rw [numberOf_snoc] at hm
  cases hq : numberOf cs q with
  | some k =>
    rw [hq, Option.some_or, Option.some.injEq] at hm
    subst hm
    obtain ⟨x, hx, hdentries, hterm⟩ := h.node q k hq
    rw [hcreates.inode, if_neg (h.ne_succ hq), children_snoc]
    by_cases hdir : c.dir = q
    · -- the directory of the creation
      subst hdir
      have hkn : k = n := by
        rw [hn, Option.some.injEq] at hq
        exact hq.symm
      rw [hkn, hcreates.old, Option.some.injEq] at hx
      rw [if_pos hkn, if_pos rfl, ← h.succ_eq]
      refine ⟨e', rfl, ?_, ?_⟩
      · rw [hcreates.dentries, hx, hdentries]
      · exact hcreates.terminated (hx ▸ hterm)
    · have hkn : k ≠ n := by
        rintro rfl
        exact hdir (numberOf_inj (by omega) hn hq)
      rw [if_neg hkn, if_neg hdir, List.append_nil]
      exact ⟨x, hx, hdentries, hterm⟩
  | none =>
    rw [hq, Option.none_or, Option.ite_none_right_eq_some, Option.some.injEq] at hm
    obtain ⟨rfl, rfl⟩ := hm
    have hdir : c.dir ≠ c.path := by
      unfold Creation.path
      simp
    rw [hcreates.inode, if_pos h.succ_eq.symm, children_snoc, if_neg hdir, List.append_nil,
      h.children_of_absent habsent]
    exact ⟨_, rfl, Entry.dentries_of_size_zero rfl, terminated_nil⟩

/-- Every creation has its kind, the new one included. -/
theorem TreeInv.kind_snoc (h : w.TreeInv cs) (hpermissions : c.mode &&& sIfmt = 0)
    (hcreates : Creates w w' c n (w.curInodeNum + 1) e e') (i : Nat) (d : Creation)
    (hd : (cs ++ [c])[i]? = some d) :
    ∃ x, w'.inode (nodeNumber i) = some x ∧ x.inode.mode &&& sIfmt = d.kind := by
  have hlen := h.length_lt
  by_cases hi : i < cs.length
  · rw [List.getElem?_append_left hi] at hd
    obtain ⟨x, hx, hmode⟩ := h.kind i d hd
    have hne : nodeNumber i ≠ w.curInodeNum + 1 := by
      intro heq
      have := congrArg UInt32.toNat (heq.trans h.succ_eq)
      rw [nodeNumber_toNat (by omega), nodeNumber_toNat (by omega)] at this
      omega
    obtain ⟨x', hx', hmode'⟩ := hcreates.mode_kept hne hx
    exact ⟨x', hx', hmode' ▸ hmode⟩
  · have hieq : i = cs.length := by
      obtain ⟨hlt, -⟩ := List.getElem?_eq_some_iff.mp hd
      rw [List.length_append, List.length_singleton] at hlt
      omega
    subst hieq
    rw [List.getElem?_concat_length, Option.some.injEq] at hd
    subst hd
    rw [hcreates.inode, if_pos h.succ_eq.symm]
    exact ⟨_, rfl, kind_or_mode hpermissions⟩

/-- A creation adds its path to the tree. -/
theorem TreeInv.create (h : w.TreeInv cs) (hc : w.Creatable c) :
    ∃ w', w.exec c.call = some (0, w') ∧ w'.TreeInv (cs ++ [c]) := by
  obtain ⟨w', n, e, e', hexec, hn, hinv', hcur, hcreates⟩ := h.creates hc
  obtain ⟨es, hinv⟩ := h.inv
  have hcount := h.count
  have habsent := h.absent hc
  refine ⟨w', hexec, hinv', ?_, h.node_snoc habsent hn hcreates,
    h.kind_snoc hc.permissions hcreates, ?_, Closed.snoc h.closed (by rw [hn]; rfl),
    nodup_snoc h.distinct habsent, ?_⟩
  · rw [hcur, hinv.succ_toNat, List.length_append, List.length_singleton]
    omega
  · obtain ⟨x, hx, hdir⟩ := h.root
    obtain ⟨x', hx', hmode⟩ := hcreates.mode_kept (h.ne_succ (numberOf_nil cs)) hx
    refine ⟨x', hx', ?_⟩
    unfold Inode.IsDir
    rw [hmode]
    exact hdir
  · intro d hd
    rw [List.mem_append, List.mem_singleton] at hd
    rcases hd with hd | rfl
    · exact h.canonical d hd
    · exact hc.canonical

end Create

/-! ## What the operations show -/

/-- The inode number a path resolves to. -/
def numberAt (w : Wfs) (path : Bytes) : Option (Option UInt32) :=
  (w.pathToInode path).map (Option.map fun o => (inodeAt w.disk o).inodeNumber)

/-- The file system shows the tree of the creations `cs`. -/
structure ShowsTree (w : Wfs) (cs : List Creation) : Prop where
  /-- `path_to_inode` returns, and not a null pointer exactly for the paths that exist. -/
  resolves : ∀ q, Canonical q → ∃ found, w.pathToInode (pathString q) = some found ∧
    (found.isSome = true ↔ q = [] ∨ ∃ c ∈ cs, c.path = q)
  /-- Different paths lead to different inode numbers. -/
  distinct : ∀ q q' n, Canonical q → Canonical q' →
    w.numberAt (pathString q) = some (some n) → w.numberAt (pathString q') = some (some n) →
    q = q'
  /-- `wfs_getattr` reports the kinds. -/
  root_kind : ∃ st, w.wfsGetattr (pathString []) = some (.ok st) ∧ st.mode &&& sIfmt = sIfdir
  kinds : ∀ c ∈ cs, ∃ st, w.wfsGetattr (pathString c.path) = some (.ok st) ∧
    st.mode &&& sIfmt = c.kind
  /-- `wfs_readdir` lists the children in the order of creation. -/
  lists : ∀ d, (d = [] ∨ ∃ c ∈ cs, c.path = d ∧ c.isDir = true) →
    w.wfsReaddir (pathString d) =
      some ([46] :: [46, 46] :: ((cs.filter fun c => c.dir = d).map Creation.name))

theorem canonical_nil : Canonical [] := ⟨by simp, by decide⟩

/-- The path of an existing inode resolves to its entry. -/
theorem TreeInv.resolve (h : w.TreeInv cs) {q : List Bytes} (hq : Canonical q) {e : Entry}
    (hn : numberOf cs q = some n) (he : w.inode n = some e) :
    ∃ o, w.pathToInode (pathString q) = some (some o) ∧ entryAt w.disk o = e ∧
      (inodeAt w.disk o).inodeNumber = n := by
  obtain ⟨es, hinv⟩ := h.inv
  obtain ⟨o, ho, hentry⟩ := inode_eq_some he
  refine ⟨o, ?_, hentry, ?_⟩
  · rw [h.pathToInode_eq hq, hn, Option.bind_some, ho]
  · rw [← hinv.number_of_inode he, ← hentry]
    rfl

/-- The inode number that a canonical path resolves to is that of its creation. -/
theorem TreeInv.numberAt_eq (h : w.TreeInv cs) {q : List Bytes} (hq : Canonical q) :
    w.numberAt (pathString q) = some (numberOf cs q) := by
  cases hn : numberOf cs q with
  | none =>
    unfold numberAt
    rw [h.pathToInode_eq hq, hn]
    rfl
  | some n =>
    obtain ⟨e, he, -⟩ := h.node q n hn
    obtain ⟨o, hpath, -, hnumber⟩ := h.resolve hq hn he
    unfold numberAt
    rw [hpath, Option.map_some, Option.map_some, hnumber]

/-- `wfs_getattr` of an existing inode reports the mode of its entry. -/
theorem TreeInv.getattr (h : w.TreeInv cs) {q : List Bytes} (hq : Canonical q) {e : Entry}
    (hn : numberOf cs q = some n) (he : w.inode n = some e) :
    ∃ st, w.wfsGetattr (pathString q) = some (.ok st) ∧ st.mode = e.inode.mode := by
  obtain ⟨o, hpath, hentry, -⟩ := h.resolve hq hn he
  unfold wfsGetattr
  rw [hpath, Option.map_some]
  refine ⟨_, rfl, ?_⟩
  rw [← hentry]
  rfl

/-- The name that `wfs_readdir` reads from a directory entry. -/
theorem Inv.stringAt_eq (h : w.Inv es) {e : Entry} (ho : w.numberToInode n = some o)
    (hentry : entryAt w.disk o = e) (hterm : Terminated e.data) {i : Nat}
    (hi : i < e.inode.size.toNat / sizeofDentry) :
    w.stringAt (o + sizeofInode + sizeofDentry * i) = dentryName e.data i := by
  apply stringAt_dentry hentry hterm _ hi
  obtain ⟨pre, x, post, hlast, -, ho'⟩ := (numberToInode_eq_some_iff h.holds).mp ho
  have hholds : LogIs w.disk sizeofSb (pre ++ x :: post) w.head.toNat := hlast.split ▸ h.holds
  have hx : x = e := by
    rw [← hentry, ho']
    exact hholds.entry_eq.symm
  subst hx
  have hhead := hholds.end_eq
  rw [logLength_append, logLength_cons] at hhead
  have h1 := h.head_le
  have h2 := h.len_le
  unfold Entry.length at hhead
  omega

/-- `wfs_readdir` of an existing path lists its children. -/
theorem TreeInv.readdir (h : w.TreeInv cs) {q : List Bytes} (hq : Canonical q)
    (hn : numberOf cs q = some n) :
    w.wfsReaddir (pathString q) =
      some ([46] :: [46, 46] :: ((cs.filter fun c => c.dir = q).map Creation.name)) := by
  obtain ⟨es, hinv⟩ := h.inv
  obtain ⟨e, he, hdentries, hterm⟩ := h.node q n hn
  obtain ⟨o, ho, hentry⟩ := inode_eq_some he
  have hpath : w.pathToInode (pathString q) = some (some o) := by
    rw [h.pathToInode_eq hq, hn, Option.bind_some, ho]
  have hcount : dentries w.disk o = e.inode.size.toNat / sizeofDentry := by
    rw [← hentry]
    rfl
  have hnames : (List.range (dentries w.disk o)).map (fun i =>
      w.stringAt (o + sizeofInode + sizeofDentry * i)) = e.dentries.map Prod.fst := by
    unfold Entry.dentries
    rw [List.map_map, hcount]
    apply List.map_congr_left
    intro i hi
    exact hinv.stringAt_eq ho hentry hterm (List.mem_range.mp hi)
  unfold wfsReaddir
  rw [hpath]
  simp only
  rw [hnames, hdentries, children_names]

theorem TreeInv.showsTree (h : w.TreeInv cs) : w.ShowsTree cs := by
  constructor
  · intro q hq
    refine ⟨_, h.pathToInode_eq hq, ?_⟩
    rw [← numberOf_isSome_iff]
    cases hn : numberOf cs q with
    | none => simp
    | some n =>
      obtain ⟨e, he, -⟩ := h.node q n hn
      obtain ⟨o, ho, -⟩ := inode_eq_some he
      simp [ho]
  · intro q q' n hq hq' hn hn'
    have hlen := h.length_lt
    rw [h.numberAt_eq hq, Option.some.injEq] at hn
    rw [h.numberAt_eq hq', Option.some.injEq] at hn'
    exact numberOf_inj (by omega) hn hn'
  · obtain ⟨e, he, hdir⟩ := h.root
    obtain ⟨st, hst, hmode⟩ := h.getattr canonical_nil (numberOf_nil cs) he
    exact ⟨st, hst, hmode ▸ hdir⟩
  · intro c hc
    obtain ⟨i, hi⟩ := List.getElem?_of_mem hc
    obtain ⟨e, he, hmode⟩ := h.kind i c hi
    have hsome := (numberOf_isSome_iff cs c.path).mpr (.inr ⟨c, hc, rfl⟩)
    obtain ⟨n, hn⟩ := Option.isSome_iff_exists.mp hsome
    obtain ⟨j, d, hj, hpath, rfl⟩ := numberOf_eq_some (by unfold Creation.path; simp) hn
    -- the paths are distinct, so the first creation of this path is the only one
    have hji : j = i := by
      have hpaths := h.distinct
      obtain ⟨hjlt, hjd⟩ := List.getElem?_eq_some_iff.mp hj
      obtain ⟨hilt, hic⟩ := List.getElem?_eq_some_iff.mp hi
      have hj' : j < (cs.map Creation.path).length := by simpa using hjlt
      have hi' : i < (cs.map Creation.path).length := by simpa using hilt
      have heq : (cs.map Creation.path)[j] = (cs.map Creation.path)[i] := by
        rw [List.getElem_map, List.getElem_map, hjd, hic]
        exact hpath
      exact (List.Nodup.getElem_inj_iff hpaths).mp heq
    subst hji
    obtain ⟨st, hst, hmode'⟩ := h.getattr (h.canonical c hc) hn he
    exact ⟨st, hst, hmode' ▸ hmode⟩
  · intro d hd
    have hcanonical : Canonical d := by
      rcases hd with rfl | ⟨c, hc, rfl, -⟩
      · exact canonical_nil
      · exact h.canonical c hc
    have hexists : d = [] ∨ ∃ c ∈ cs, c.path = d := by
      rcases hd with hd | ⟨c, hc, hpath, -⟩
      · exact .inl hd
      · exact .inr ⟨c, hc, hpath⟩
    obtain ⟨n, hn⟩ := Option.isSome_iff_exists.mp ((numberOf_isSome_iff cs d).mpr hexists)
    exact h.readdir hcanonical hn

theorem TreeInv.init {image : Image} {env : Env} (hlen : sizeofSb + sizeofInode ≤ image.len)
    (hmount : mount (mkfs image env) = some w) : w.TreeInv [] := by
  have hinv := Inv.init hlen hmount
  obtain ⟨-, -, -, hcur⟩ := mount_mkfs hlen hmount
  have hroot : w.inode 0 = some (rootEntry env) := by
    rw [hinv.inode_eq]
    rfl
  refine ⟨⟨_, hinv⟩, ?_, ?_, ?_, ?_, ?_, List.nodup_nil, ?_⟩
  · rw [hcur]
    rfl
  · intro q n hn
    by_cases hq : q = []
    · rw [hq, numberOf_nil, Option.some.injEq] at hn
      subst hn
      exact ⟨_, hroot, Entry.dentries_of_size_zero rfl, terminated_nil⟩
    · obtain ⟨i, c, hi, -⟩ := numberOf_eq_some hq hn
      simp at hi
  · intro i c hi
    simp at hi
  · refine ⟨_, hroot, ?_⟩
    show (sIfdir ||| 0o755) &&& sIfmt = sIfdir
    decide
  · intro c hc
    simp at hc
  · intro c hc
    simp at hc

/-- From a fresh image, every sequence of creations leaves a file system that shows the tree of
these creations. Each further creation returns 0 and leaves the inode number that every other
path resolves to as it was. -/
theorem wfs_refines_tree {image : Image} {env : Env} {w₀ : Wfs}
    (hlen : sizeofSb + sizeofInode ≤ image.len) (hmount : mount (mkfs image env) = some w₀)
    (run : Run (guarded Creatable (stepOf create)) w₀ cs w) :
    w.ShowsTree cs ∧ ∀ c, w.Creatable c → ∃ w', w.exec c.call = some (0, w') ∧
      ∀ q, Canonical q → q ≠ c.path → w'.numberAt (pathString q) = w.numberAt (pathString q) := by
  have hinv : w.TreeInv cs := by
    induction run with
    | nil => exact TreeInv.init hlen hmount
    | snoc _ hstep ih =>
      obtain ⟨hc, hcreate⟩ := hstep
      obtain ⟨w', hexec, hinv'⟩ := ih.create hc
      simp only [stepOf, Wfs.create, next, hexec, Option.map_some, Option.some.injEq] at hcreate
      exact hcreate ▸ hinv'
  refine ⟨hinv.showsTree, ?_⟩
  intro c hc
  obtain ⟨w', hexec, hinv'⟩ := hinv.create hc
  refine ⟨w', hexec, ?_⟩
  intro q hq hne
  rw [hinv'.numberAt_eq hq, hinv.numberAt_eq hq, numberOf_snoc, if_neg (Ne.symm hne),
    Option.or_none]

instance (x : Bytes) : Decidable (IsComponent x) :=
  decidable_of_iff (x ≠ [] ∧ slash ∉ x ∧ (0 : UInt8) ∉ x)
    ⟨fun ⟨hne, hslash, hzero⟩ => ⟨hne, hslash, hzero⟩,
      fun ⟨hne, hslash, hzero⟩ => ⟨hne, hslash, hzero⟩⟩

instance (w : Wfs) (c : Creation) : Decidable (w.Creatable c) :=
  decidable_of_iff ((∀ x ∈ c.path, IsComponent x ∧ x.length ≤ 31) ∧
      (pathString c.path).length ≤ 127 ∧
      (∃ o ∈ (w.pathToInode (pathString c.dir)).bind id, (inodeAt w.disk o).IsDir ∧
        w.Fits (w.parentLength o + sizeofInode)) ∧
      w.pathToInode (pathString c.path) = some none ∧ c.mode &&& sIfmt = 0) <| by
    constructor
    · rintro ⟨hcomponents, hlen, ⟨o, ho, hdir⟩, habsent, hmode⟩
      refine ⟨hcomponents, hlen, ⟨o, ?_, hdir⟩, habsent, hmode⟩
      simpa [Option.bind_eq_some_iff] using ho
    · rintro ⟨hcomponents, hlen, ⟨o, ho, hdir⟩, habsent, hmode⟩
      exact ⟨hcomponents, hlen, ⟨o, by simp [ho], hdir⟩, habsent, hmode⟩

/-- The directory `/d`, the file `/f`, the directory `/d/e` and the file `/d/e/g`. -/
def nestedCreations : List Creation :=
  [⟨[], [100], true, 0o755, quietEnv⟩, ⟨[], [102], false, 0o644, quietEnv⟩,
    ⟨[[100]], [101], true, 0o755, quietEnv⟩, ⟨[[100], [101]], [103], false, 0o644, quietEnv⟩]

/-- The theorem at one page: the entry of `/d` is written anew beside the file `/f`, and that of
`/d/e` below it. -/
theorem wfs_refines_tree_nested :
    ∃ w₀ w, mount (mkfs onePage quietEnv) = some w₀ ∧
      Run (guarded Creatable (stepOf create)) w₀ nestedCreations w ∧
      w.ShowsTree nestedCreations := by
  have hobs : ((mount (mkfs onePage quietEnv)).bind fun w =>
      runOf (fun w c => if w.Creatable c then w.create c else none) w
        nestedCreations).isSome = true := by decide +kernel
  obtain ⟨w, hw⟩ := Option.isSome_iff_exists.mp hobs
  obtain ⟨w₀, hmount, hruns⟩ := Option.bind_eq_some_iff.mp hw
  have hrun := run_guarded_of_runOf hruns
  exact ⟨w₀, w, hmount, hrun, (wfs_refines_tree (by decide) hmount hrun).1⟩

end Wfs

end Cs537.P7
