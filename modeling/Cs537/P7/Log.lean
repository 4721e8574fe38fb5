import Cs537.Lib.VersionLog
import Cs537.P7.Wfs

/-!
# The log as a list of entries

Between the superblock and `wp->head` the disk holds log entries, each an inode and the
`size` bytes of data behind it. `LogIs` says which entries lie between two offsets. Here are
the two ways the log changes, an entry marked as deleted in place and an entry appended, what
`number_to_inode` finds in it, and what the operations do to it.
-/

namespace Cs537.P7

open Cs537.Lib

/-- A log entry: an inode and as many bytes of data as its size says. -/
@[ext]
structure Entry where
  inode : Inode
  data : Bytes
  fits : data.length = inode.size.toNat

/-- `struct wfs_log_entry` at an offset (`wfs.h:43-46`). -/
def entryAt (m : Mem) (o : Nat) : Entry where
  inode := inodeAt m o
  data := m.slice (o + sizeofInode) (inodeAt m o).size.toNat
  fits := m.length_slice _ _

namespace Entry

/-- The stride of the log walk over an entry. -/
def length (e : Entry) : Nat := sizeofInode + e.inode.size.toNat

/-- The bytes of an entry on the disk. -/
def bytes (e : Entry) : Bytes := e.inode.bytes ++ e.data

/-- The inode number of an entry. -/
def number (e : Entry) : UInt32 := e.inode.inodeNumber

/-- The entry is not marked as deleted. -/
def Live (e : Entry) : Prop := e.inode.deleted = 0

instance (e : Entry) : Decidable e.Live := inferInstanceAs (Decidable (_ = _))

/-- The entry with its `deleted` field set. -/
def marked (e : Entry) : Entry where
  inode := { e.inode with deleted := 1 }
  data := e.data
  fits := e.fits

@[simp] theorem marked_number (e : Entry) : e.marked.number = e.number := rfl

@[simp] theorem marked_length (e : Entry) : e.marked.length = e.length := rfl

theorem not_live_marked (e : Entry) : ¬ e.marked.Live := by
  intro h
  exact absurd h (by decide : (1 : UInt32) ≠ 0)

end Entry

/-! ## Inodes in memory -/

@[simp] theorem Inode.length_bytes (i : Inode) : i.bytes.length = sizeofInode := by
  simp [Inode.bytes, sizeofInode]

@[simp] theorem Entry.length_bytes (e : Entry) : e.bytes.length = e.length := by
  simp [Entry.bytes, Entry.length, e.fits]

/-- An inode from its words. -/
def Inode.ofWords (ws : Nat → UInt32) : Inode :=
  ⟨ws 0, ws 1, ws 2, ws 3, ws 4, ws 5, ws 6, ws 7, ws 8, ws 9, ws 10⟩

theorem inodeAt_eq_ofWords (m : Mem) (o : Nat) :
    inodeAt m o = Inode.ofWords fun k => m.u32 (o + 4 * k) := rfl

/-- Memories that agree on the bytes of an inode, at two offsets. -/
theorem inodeAt_congr {m m' : Mem} {o o' : Nat} (h : ∀ i < sizeofInode, m' (o' + i) = m (o + i)) :
    inodeAt m' o' = inodeAt m o := by
  have word {k : Nat} (hk : k < 11) : m'.u32 (o' + 4 * k) = m.u32 (o + 4 * k) := by
    have hslice : m'.slice (o' + 4 * k) 4 = m.slice (o + 4 * k) 4 := by
      apply Mem.slice_congr
      intro i hi
      have hbyte := h (4 * k + i) (by unfold sizeofInode; omega)
      rwa [← Nat.add_assoc, ← Nat.add_assoc] at hbyte
    unfold Mem.u32
    rw [hslice]
  simp only [inodeAt_eq_ofWords, Inode.ofWords, word (by omega : 0 < 11), word (by omega : 1 < 11),
    word (by omega : 2 < 11), word (by omega : 3 < 11), word (by omega : 4 < 11),
    word (by omega : 5 < 11), word (by omega : 6 < 11), word (by omega : 7 < 11),
    word (by omega : 8 < 11), word (by omega : 9 < 11), word (by omega : 10 < 11)]

/-- Storing one word of an array of words. -/
theorem words_write (m : Mem) (o k : Nat) (v : UInt32) :
    (fun j => (m.write (o + 4 * k) (le32 v)).u32 (o + 4 * j)) =
      Function.update (fun j => m.u32 (o + 4 * j)) k v := by
  funext j
  by_cases hj : j = k
  · subst hj
    rw [Function.update_self]
    apply Mem.u32_of_slice
    exact Mem.slice_write_self m _ (le32 v)
  · rw [Function.update_of_ne hj]
    apply Mem.u32_congr
    intro x h1 h2
    apply Mem.write_of_disjoint
    rw [length_le32]
    omega

/-- Memories that agree on the bytes of an entry, at two offsets. -/
theorem entryAt_congr {m m' : Mem} {o o' : Nat}
    (h : ∀ i < (entryAt m o).length, m' (o' + i) = m (o + i)) : entryAt m' o' = entryAt m o := by
  have hlen : (entryAt m o).length = sizeofInode + (inodeAt m o).size.toNat := rfl
  have hinode : inodeAt m' o' = inodeAt m o := by
    apply inodeAt_congr
    intro i hi
    exact h i (by omega)
  apply Entry.ext
  · exact hinode
  · simp only [entryAt, hinode]
    apply Mem.slice_congr
    intro i hi
    have hbyte := h (sizeofInode + i) (by omega)
    rwa [← Nat.add_assoc, ← Nat.add_assoc] at hbyte

/-- An inode whose bytes lie at an offset is the inode there. -/
theorem inodeAt_of_slice {m : Mem} {o : Nat} {i : Inode}
    (h : m.slice o sizeofInode = i.bytes) : inodeAt m o = i := by
  have field {k : Nat} {v : UInt32} (hk : 4 * k + 4 ≤ sizeofInode)
      (hv : (i.bytes.drop (4 * k)).take 4 = le32 v) : m.u32 (o + 4 * k) = v := by
    apply Mem.u32_of_slice
    rw [← hv, ← h, Mem.slice_drop_take m o hk]
  have word {k : Nat} {v : UInt32} (hk : 4 * k + 4 ≤ sizeofInode)
      (hv : [i.inodeNumber, i.deleted, i.mode, i.uid, i.gid, i.flags, i.size, i.atime, i.mtime,
        i.ctime, i.links][k]? = some v) : m.u32 (o + 4 * k) = v :=
    field hk (flatMap_le32_word hv)
  unfold sizeofInode at word
  unfold inodeAt
  congr 1
  · exact word (k := 0) (by omega) rfl
  · exact word (k := 1) (by omega) rfl
  · exact word (k := 2) (by omega) rfl
  · exact word (k := 3) (by omega) rfl
  · exact word (k := 4) (by omega) rfl
  · exact word (k := 5) (by omega) rfl
  · exact word (k := 6) (by omega) rfl
  · exact word (k := 7) (by omega) rfl
  · exact word (k := 8) (by omega) rfl
  · exact word (k := 9) (by omega) rfl
  · exact word (k := 10) (by omega) rfl

/-- An entry whose bytes lie at an offset is the entry there. -/
theorem entryAt_of_slice {m : Mem} {o : Nat} {e : Entry} (h : m.slice o e.length = e.bytes) :
    entryAt m o = e := by
  unfold Entry.length at h
  rw [Mem.slice_add, Entry.bytes, ← e.fits] at h
  obtain ⟨hinode, hdata⟩ := List.append_inj h (by simp)
  have hi := inodeAt_of_slice hinode
  apply Entry.ext
  · exact hi
  · simp only [entryAt, hi]
    rw [← e.fits]
    exact hdata

/-- Storing 1 in the `deleted` field of an inode. -/
theorem inodeAt_mark (m : Mem) (o : Nat) :
    inodeAt (m.write (o + 4) (le32 1)) o = { inodeAt m o with deleted := 1 } := by
  rw [inodeAt_eq_ofWords, show o + 4 = o + 4 * 1 from rfl, words_write]
  rfl

/-- Storing the `size` field of an inode. -/
theorem inodeAt_write_size (m : Mem) (o : Nat) (size : UInt32) :
    inodeAt (m.write (o + 24) (le32 size)) o = { inodeAt m o with size := size } := by
  rw [inodeAt_eq_ofWords, show o + 24 = o + 4 * 6 from rfl, words_write]
  rfl

/-! ## The log -/

/-- The number of bytes that entries take. -/
def logLength (es : List Entry) : Nat := (es.map Entry.length).sum

@[simp] theorem logLength_nil : logLength [] = 0 := rfl

@[simp] theorem logLength_cons (e : Entry) (es : List Entry) :
    logLength (e :: es) = e.length + logLength es := by
  simp [logLength]

@[simp] theorem logLength_append (es fs : List Entry) :
    logLength (es ++ fs) = logLength es + logLength fs := by
  simp [logLength]

/-- Walking from offset `a` with stride `44 + inode.size` passes over the entries `es` and
lands exactly on offset `b`. -/
def LogIs (m : Mem) : Nat → List Entry → Nat → Prop
  | a, [], b => a = b
  | a, e :: es, b => entryAt m a = e ∧ LogIs m (a + e.length) es b

namespace LogIs

variable {m m' : Mem} {a b : Nat} {es fs pre post : List Entry} {e : Entry}

theorem end_eq (h : LogIs m a es b) : b = a + logLength es := by
  induction es generalizing a with
  | nil => exact h.symm
  | cons e es ih =>
    rw [ih h.2, logLength_cons, Nat.add_assoc]

theorem append_iff :
    LogIs m a (es ++ fs) b ↔
      LogIs m a es (a + logLength es) ∧ LogIs m (a + logLength es) fs b := by
  induction es generalizing a with
  | nil => simp [LogIs]
  | cons e es ih =>
    simp only [List.cons_append, LogIs, ih, logLength_cons, Nat.add_assoc, and_assoc]

/-- The entries depend on the bytes between the two offsets only. -/
theorem congr (h : LogIs m a es b) (hm : ∀ x, a ≤ x → x < b → m' x = m x) :
    LogIs m' a es b := by
  induction es generalizing a with
  | nil => exact h
  | cons e es ih =>
    obtain ⟨he, htail⟩ := h
    have hend := htail.end_eq
    subst he
    constructor
    · apply entryAt_congr
      intro i hi
      exact hm (a + i) (by omega) (by omega)
    · apply ih htail
      intro x h1 h2
      apply hm x _ h2
      omega

/-- The bytes between two offsets are one list of entries at most. -/
theorem unique (h : LogIs m a es b) (h' : LogIs m a fs b) : es = fs := by
  induction es generalizing a fs with
  | nil =>
    cases fs with
    | nil => rfl
    | cons f fs =>
      have hend := h'.end_eq
      have hstart : a = b := h
      rw [logLength_cons, Entry.length, sizeofInode] at hend
      omega
  | cons e es ih =>
    cases fs with
    | nil =>
      have hend := h.end_eq
      have hstart : a = b := h'
      rw [logLength_cons, Entry.length, sizeofInode] at hend
      omega
    | cons f fs =>
      obtain rfl : e = f := h.1.symm.trans h'.1
      rw [ih h.2 h'.2]

/-- The entry behind a prefix of the log. -/
theorem entry_eq (h : LogIs m a (pre ++ e :: post) b) : entryAt m (a + logLength pre) = e :=
  (append_iff.mp h).2.1

/-- Storing 1 in the `deleted` field of one entry. -/
theorem mark (h : LogIs m a (pre ++ e :: post) b) :
    LogIs (m.write (a + logLength pre + 4) (le32 1)) a (pre ++ e.marked :: post) b := by
  have hend := h.end_eq
  rw [logLength_append, logLength_cons] at hend
  have hlen : 44 ≤ e.length := by
    unfold Entry.length sizeofInode
    omega
  obtain ⟨hpre, he, hpost⟩ := append_iff.mp h
  rw [append_iff]
  refine ⟨?_, ?_, ?_⟩
  · apply hpre.congr
    intro x _ hx
    apply Mem.write_of_lt
    omega
  · generalize a + logLength pre = o at he
    subst he
    have hinode := inodeAt_mark m o
    apply Entry.ext
    · exact hinode
    · simp only [entryAt, hinode, Entry.marked]
      apply Mem.slice_write_of_disjoint
      right
      rw [length_le32]
      unfold sizeofInode
      omega
  · apply hpost.congr
    intro x hx _
    apply Mem.write_of_ge
    rw [length_le32]
    omega

/-- Copying an entry behind the log. -/
theorem snoc (h : LogIs m a es b) (block : Mem) (he : entryAt block 0 = e) :
    LogIs (m.write b (block.slice 0 e.length)) a (es ++ [e]) (b + e.length) := by
  have hend := h.end_eq
  subst hend
  rw [append_iff]
  refine ⟨?_, ?_, rfl⟩
  · apply h.congr
    intro x _ hx
    exact Mem.write_of_lt hx
  · rw [← he]
    apply entryAt_congr
    intro i hi
    rw [he] at hi
    unfold Mem.write
    rw [if_neg (by omega), Nat.add_sub_cancel_left, Mem.getElem?_slice, if_pos (by rwa [he])]
    rfl

/-- Writing the bytes of an entry behind the log. -/
theorem snoc_bytes (h : LogIs m a es b) (e : Entry) :
    LogIs (m.write b e.bytes) a (es ++ [e]) (b + e.length) := by
  have hblock : (m.write 0 e.bytes).slice 0 e.length = e.bytes := by
    rw [← e.length_bytes]
    exact Mem.slice_write_self m 0 e.bytes
  have he : entryAt (m.write 0 e.bytes) 0 = e := entryAt_of_slice hblock
  have hsnoc := h.snoc _ he
  rwa [hblock] at hsnoc

theorem length_le (h : LogIs m a es b) : sizeofInode * es.length ≤ b - a := by
  induction es generalizing a with
  | nil => simp
  | cons e es ih =>
    have hend := h.2.end_eq
    have := ih h.2
    have hlen : sizeofInode ≤ e.length := Nat.le_add_right _ _
    rw [List.length_cons, Nat.mul_succ]
    omega

end LogIs

/-! ## What `number_to_inode` finds -/

namespace Wfs

/-- A round of the scan. -/
theorem scanLog_cons {m : Mem} {es : List Entry} {x : Entry} {a b fuel : Nat}
    (h : LogIs m a (x :: es) b) (hfuel : (x :: es).length ≤ fuel) (n : UInt32) (cur : Option Nat) :
    ∃ left, es.length ≤ left ∧ scanLog m b n fuel a cur =
      scanLog m b n left (a + x.length) (if x.number = n then some a else cur) := by
  cases fuel with
  | zero => simp at hfuel
  | succ fuel =>
    obtain ⟨hentry, htail⟩ := h
    have hend := htail.end_eq
    have hlt : a < b := by
      unfold Entry.length sizeofInode at hend
      omega
    have hnumber : (inodeAt m a).inodeNumber = x.number := by
      rw [← hentry]
      rfl
    have hstride : a + sizeofInode + (inodeAt m a).size.toNat = a + x.length := by
      rw [← hentry, Nat.add_assoc]
      rfl
    refine ⟨fuel, by simpa using hfuel, ?_⟩
    rw [scanLog, if_pos hlt, hstride, hnumber]

/-- The scan passes over entries with other numbers. -/
theorem scanLog_of_notMem {m : Mem} {n : UInt32} {es : List Entry} {a b fuel : Nat}
    {cur : Option Nat} (h : LogIs m a es b) (hfuel : es.length ≤ fuel)
    (hnone : ∀ x ∈ es, x.number ≠ n) : scanLog m b n fuel a cur = cur := by
  induction es generalizing a fuel with
  | nil =>
    cases fuel with
    | zero => rfl
    | succ fuel =>
      have hab : a = b := h
      subst hab
      simp [scanLog]
  | cons e es ih =>
    obtain ⟨left, hleft, hround⟩ := scanLog_cons h hfuel n cur
    rw [hround, if_neg (hnone e List.mem_cons_self)]
    exact ih h.2 hleft fun x hx => hnone x (List.mem_cons_of_mem e hx)

/-- The scan stops with the last entry of the number. -/
theorem scanLog_of_isLast {m : Mem} {n : UInt32} {pre post : List Entry} {e : Entry}
    {a b fuel : Nat} {cur : Option Nat} (h : LogIs m a (pre ++ e :: post) b)
    (hfuel : (pre ++ e :: post).length ≤ fuel) (he : e.number = n)
    (hafter : ∀ x ∈ post, x.number ≠ n) :
    scanLog m b n fuel a cur = some (a + logLength pre) := by
  induction pre generalizing a fuel cur with
  | nil =>
    obtain ⟨left, hleft, hround⟩ := scanLog_cons h hfuel n cur
    rw [hround, if_pos he, logLength_nil, Nat.add_zero]
    exact scanLog_of_notMem h.2 hleft hafter
  | cons x pre ih =>
    obtain ⟨left, hleft, hround⟩ := scanLog_cons h hfuel n cur
    rw [hround, logLength_cons, ← Nat.add_assoc]
    exact ih h.2 hleft

/-- The last entry of a log with a number, unless that is deleted. -/
def liveOf (es : List Entry) (n : UInt32) : Option Entry :=
  (lastOf Entry.number es n).filter fun e => decide e.Live

/-- The disk holds the log `es` up to `wp->head`. -/
def Holds (w : Wfs) (es : List Entry) : Prop := LogIs w.disk sizeofSb es w.head.toNat

variable {w : Wfs} {es : List Entry} {n : UInt32} {o : Nat}

theorem Holds.length_le (h : w.Holds es) : es.length ≤ w.head.toNat := by
  have := LogIs.length_le h
  unfold sizeofInode at this
  omega

theorem Holds.head_eq (h : w.Holds es) : w.head.toNat = sizeofSb + logLength es := h.end_eq

theorem numberToInode_of_isLast {pre post : List Entry} {e : Entry} (h : w.Holds es)
    (hlast : IsLast Entry.number es n pre e post) :
    w.numberToInode n = if e.Live then some (sizeofSb + logLength pre) else none := by
  obtain ⟨rfl, hnumber, hafter⟩ := hlast
  have hentry := LogIs.entry_eq h
  have hscan : scanLog w.disk w.head.toNat n w.head.toNat sizeofSb none =
      some (sizeofSb + logLength pre) := scanLog_of_isLast h h.length_le hnumber hafter
  unfold numberToInode
  rw [hscan]
  simp only
  have hdel : (inodeAt w.disk (sizeofSb + logLength pre)).deleted = e.inode.deleted := by
    rw [← hentry]
    rfl
  rw [hdel]
  unfold Entry.Live
  by_cases hlive : e.inode.deleted = 0 <;> simp [hlive]

theorem numberToInode_of_notMem (h : w.Holds es) (hnone : ∀ x ∈ es, x.number ≠ n) :
    w.numberToInode n = none := by
  unfold numberToInode
  rw [scanLog_of_notMem h h.length_le hnone]

/-- `number_to_inode` finds the last entry of the number, if that is not deleted. -/
theorem numberToInode_eq_some_iff (h : w.Holds es) :
    w.numberToInode n = some o ↔
      ∃ pre e post, IsLast Entry.number es n pre e post ∧ e.Live ∧ o = sizeofSb + logLength pre := by
  constructor
  · intro hfind
    rcases isLast_or_notMem Entry.number es n with hnone | ⟨pre, e, post, hlast⟩
    · rw [numberToInode_of_notMem h hnone] at hfind
      cases hfind
    · rw [numberToInode_of_isLast h hlast, Option.ite_none_right_eq_some] at hfind
      obtain ⟨hlive, ho⟩ := hfind
      exact ⟨pre, e, post, hlast, hlive, (Option.some.inj ho).symm⟩
  · rintro ⟨pre, e, post, hlast, hlive, rfl⟩
    rw [numberToInode_of_isLast h hlast, if_pos hlive]

/-- The live entry of an inode. -/
def inode (w : Wfs) (n : UInt32) : Option Entry := (w.numberToInode n).map (entryAt w.disk)

theorem inode_eq_some {e : Entry} (h : w.inode n = some e) :
    ∃ o, w.numberToInode n = some o ∧ entryAt w.disk o = e := Option.map_eq_some_iff.mp h

theorem Holds.inode_eq (h : w.Holds es) (n : UInt32) : w.inode n = liveOf es n := by
  unfold inode liveOf
  rcases isLast_or_notMem Entry.number es n with hnone | ⟨pre, e, post, hlast⟩
  · rw [numberToInode_of_notMem h hnone, lastOf_eq_none hnone]
    rfl
  · rw [numberToInode_of_isLast h hlast, hlast.lastOf_eq, Option.filter_some]
    by_cases hlive : e.Live
    · have hholds : LogIs w.disk sizeofSb (pre ++ e :: post) w.head.toNat := hlast.split ▸ h
      rw [if_pos hlive, if_pos (by simpa using hlive), Option.map_some, hholds.entry_eq]
    · rw [if_neg hlive, if_neg (by simpa using hlive), Option.map_none]

theorem walkPath_nil (w : Wfs) (start : Option Nat) : w.walkPath start [] = some start := by
  cases start <;> rfl

/-- The path `/` is no special case. -/
theorem pathToInode_eq_walkPath (w : Wfs) (path : Bytes) :
    w.pathToInode path = w.walkPath (w.numberToInode 0) (strtok ((cstr path).take 127)) := by
  unfold pathToInode
  by_cases hroot : cstr path = [slash]
  · have htok : strtok (([slash] : Bytes).take 127) = [] := by decide
    rw [if_pos hroot, hroot, htok, walkPath_nil]
  · rw [if_neg hroot]

/-- Whatever a path resolves to was found by `number_to_inode`. -/
theorem walkPath_eq_some {start : Option Nat} {toks : List Bytes}
    (hstart : ∀ o, start = some o → ∃ n, w.numberToInode n = some o)
    (h : w.walkPath start toks = some (some o)) : ∃ n, w.numberToInode n = some o := by
  induction toks generalizing start with
  | nil =>
    simp only [walkPath, Option.some.injEq] at h
    exact hstart o h
  | cons tok toks ih =>
    cases start with
    | none => simp [walkPath] at h
    | some rootLog =>
      simp only [walkPath] at h
      split at h
      · simp at h
      · apply ih _ h
        intro o' ho'
        exact ⟨_, ho'⟩

theorem pathToInode_eq_some {path : Bytes} (h : w.pathToInode path = some (some o)) :
    ∃ n, w.numberToInode n = some o := by
  rw [pathToInode_eq_walkPath] at h
  apply walkPath_eq_some _ h
  intro o' ho'
  exact ⟨0, ho'⟩

end Wfs

end Cs537.P7
