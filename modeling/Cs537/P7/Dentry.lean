import Cs537.P7.Ops

/-!
# Directory entries

The data of a directory is a row of 40-byte directory entries, each a name and an inode
number. `path_to_inode` compares names with `strcmp` in the disk; as long as each name ends
inside its own directory entry, that is a search in the list of names.
-/

namespace Cs537.P7

open Cs537.Lib

/-- The inode number in the `i`-th directory entry of some data, as an `int`. -/
def dentryNumber (data : Bytes) (i : Nat) : UInt32 :=
  UInt32.ofNat (leNat ((data.drop (sizeofDentry * i + maxFileNameLen)).take 4))

theorem dentryNumber_append_left {data d : Bytes} {i : Nat}
    (hi : sizeofDentry * i + sizeofDentry ≤ data.length) :
    dentryNumber (data ++ d) i = dentryNumber data i := by
  have hs : sizeofDentry = 40 := rfl
  have hm : maxFileNameLen = 32 := rfl
  unfold dentryNumber
  rw [List.drop_append_of_le_length (by omega), List.take_append_of_le_length (by simp; omega)]

theorem dentryNumber_append_right {data d : Bytes} {k : Nat}
    (hk : data.length = sizeofDentry * k) : dentryNumber (data ++ d) k = dentryNumber d 0 := by
  unfold dentryNumber
  rw [Nat.mul_zero, Nat.zero_add, ← hk, ← List.drop_drop, List.drop_left]

/-- A number read from its four bytes. -/
theorem dentryNumber_eq {d : Bytes} {v : UInt32} (h : (d.drop maxFileNameLen).take 4 = le32 v) :
    dentryNumber d 0 = v := by
  unfold dentryNumber
  rw [Nat.mul_zero, Nat.zero_add, h, ofNat_leNat_le32]

/-- The name in the `i`-th directory entry of some data. -/
def dentryName (data : Bytes) (i : Nat) : Bytes :=
  cstr ((data.drop (sizeofDentry * i)).take sizeofDentry)

theorem dentryName_append_left {data d : Bytes} {i : Nat}
    (hi : sizeofDentry * i + sizeofDentry ≤ data.length) :
    dentryName (data ++ d) i = dentryName data i := by
  unfold dentryName
  rw [List.drop_append_of_le_length (by omega), List.take_append_of_le_length (by simp; omega)]

theorem dentryName_append_right {data d : Bytes} {k : Nat}
    (hk : data.length = sizeofDentry * k) : dentryName (data ++ d) k = dentryName d 0 := by
  unfold dentryName
  rw [Nat.mul_zero, ← hk, List.drop_left, List.drop_zero]

/-- Every name in some data ends inside its directory entry. -/
def Terminated (data : Bytes) : Prop :=
  ∀ i < data.length / sizeofDentry,
    (0 : UInt8) ∈ (data.drop (sizeofDentry * i)).take sizeofDentry

/-- The directory entries in the data of a log entry. -/
def Entry.dentries (e : Entry) : List (Bytes × UInt32) :=
  (List.range (e.inode.size.toNat / sizeofDentry)).map fun i =>
    (dentryName e.data i, dentryNumber e.data i)

theorem Entry.dentries_of_size_zero {e : Entry} (h : e.inode.size = 0) : e.dentries = [] := by
  unfold Entry.dentries
  rw [h]
  simp

/-- The number that the search for a name gives, `-1` if there is none. -/
def Entry.lookup (e : Entry) (tok : Bytes) : UInt32 :=
  ((e.dentries.find? fun d => d.1 = tok).map Prod.snd).getD minusOne

/-- One more directory entry. -/
theorem Entry.dentries_grow {e e' : Entry} {d : Bytes} (hdata : e'.data = e.data ++ d)
    (hd : d.length = sizeofDentry) (hdvd : sizeofDentry ∣ e.inode.size.toNat) :
    e'.dentries = e.dentries ++ [(dentryName d 0, dentryNumber d 0)] := by
  obtain ⟨k, hk⟩ := hdvd
  have hs : sizeofDentry = 40 := rfl
  have hsize : e'.inode.size.toNat = sizeofDentry * (k + 1) := by
    rw [← e'.fits, hdata, List.length_append, e.fits, hk, hd, Nat.mul_succ]
  unfold Entry.dentries
  rw [hsize, hk, Nat.mul_div_cancel_left _ (by decide), Nat.mul_div_cancel_left _ (by decide),
    List.range_succ, List.map_append, List.map_singleton, hdata,
    dentryName_append_right (e.fits.trans hk), dentryNumber_append_right (e.fits.trans hk)]
  congr 1
  apply List.map_congr_left
  intro i hi
  have hlt := List.mem_range.mp hi
  have hlen : sizeofDentry * i + sizeofDentry ≤ e.data.length := by
    rw [e.fits, hk, hs]
    omega
  rw [dentryName_append_left hlen, dentryNumber_append_left hlen]

theorem Terminated.grow {data d : Bytes} (h : Terminated data)
    (hd : d.length = sizeofDentry) (hdvd : sizeofDentry ∣ data.length)
    (hzero : (0 : UInt8) ∈ d) : Terminated (data ++ d) := by
  obtain ⟨k, hk⟩ := hdvd
  have hs : sizeofDentry = 40 := rfl
  intro i hi
  rw [List.length_append, hk, hd, ← Nat.mul_succ, Nat.mul_div_cancel_left _ (by decide)] at hi
  by_cases hlt : i < k
  · have hlen : sizeofDentry * i + sizeofDentry ≤ data.length := by
      rw [hk, hs]
      omega
    rw [List.drop_append_of_le_length (by omega), List.take_append_of_le_length (by simp; omega)]
    apply h
    rw [hk, Nat.mul_div_cancel_left _ (by decide)]
    exact hlt
  · have hik : i = k := by omega
    subst hik
    rw [← hk, List.drop_left, List.take_of_length_le (by omega)]
    exact hzero

theorem terminated_nil : Terminated [] := by
  intro i hi
  simp at hi

namespace Wfs

/-- `strcmp` with a string that ends inside the 40 bytes compares the strings. -/
theorem strcmpIs_iff {m : Mem} {a n : Nat} {tok : Bytes} (htok : (0 : UInt8) ∉ tok)
    (hterm : (0 : UInt8) ∈ m.slice a n) : strcmpIs m a tok = true ↔ cstr (m.slice a n) = tok := by
  unfold strcmpIs
  rw [decide_eq_true_eq]
  by_cases hlen : tok.length + 1 ≤ n
  · have htake : m.slice a (tok.length + 1) = (m.slice a n).take (tok.length + 1) := by
      have h := Mem.slice_drop_take m a (show 0 + (tok.length + 1) ≤ n by omega)
      simpa using h.symm
    rw [htake]
    constructor
    · intro heq
      rw [← List.take_append_drop (tok.length + 1) (m.slice a n), heq, List.append_assoc]
      exact cstr_append_zero htok _
    · intro heq
      obtain ⟨rest, hrest⟩ := exists_eq_cstr_append hterm
      rw [hrest, heq, List.append_cons, List.take_append_of_le_length (by simp),
        List.take_of_length_le (by simp)]
  · have hsplit : m.slice a (tok.length + 1) =
        m.slice a n ++ m.slice (a + n) (tok.length + 1 - n) := by
      rw [← Mem.slice_add]
      congr 1
      omega
    rw [hsplit]
    constructor
    · intro heq
      have htake : m.slice a n = tok.take n := by
        have := congrArg (List.take n) heq
        rwa [List.take_append_of_le_length (by simp), List.take_of_length_le (by simp),
          List.take_append_of_le_length (by omega)] at this
      rw [htake] at hterm
      exact absurd (List.mem_of_mem_take hterm) htok
    · intro heq
      obtain ⟨rest, hrest⟩ := exists_eq_cstr_append hterm
      have hn := congrArg List.length hrest
      rw [Mem.length_slice, List.length_append, heq, List.length_cons] at hn
      omega

section Entry

variable {m : Mem} {o i : Nat} {e : Entry}

theorem dentry_inside (hi : i < e.inode.size.toNat / sizeofDentry) :
    sizeofDentry * i + sizeofDentry ≤ e.inode.size.toNat := by
  have hle : (i + 1) * sizeofDentry ≤ e.inode.size.toNat :=
    (Nat.le_div_iff_mul_le (by decide)).mp hi
  rw [Nat.add_mul, Nat.one_mul, Nat.mul_comm] at hle
  exact hle

theorem slice_data (he : entryAt m o = e) :
    m.slice (o + sizeofInode) e.inode.size.toNat = e.data := by
  rw [← he]
  rfl

/-- The bytes of a directory entry. -/
theorem slice_dentry (he : entryAt m o = e) (hi : i < e.inode.size.toNat / sizeofDentry) :
    m.slice (o + sizeofInode + sizeofDentry * i) sizeofDentry =
      (e.data.drop (sizeofDentry * i)).take sizeofDentry := by
  rw [← slice_data he, Mem.slice_drop_take m _ (dentry_inside hi)]

theorem zero_mem_dentry (he : entryAt m o = e) (hterm : Terminated e.data)
    (hi : i < e.inode.size.toNat / sizeofDentry) :
    (0 : UInt8) ∈ m.slice (o + sizeofInode + sizeofDentry * i) sizeofDentry := by
  rw [slice_dentry he hi]
  apply hterm
  rw [e.fits]
  exact hi

/-- `strcmp` in a directory entry compares its name. -/
theorem strcmpIs_dentry_iff (he : entryAt m o = e) (hterm : Terminated e.data)
    (hi : i < e.inode.size.toNat / sizeofDentry) {tok : Bytes} (htok : (0 : UInt8) ∉ tok) :
    strcmpIs m (o + sizeofInode + sizeofDentry * i) tok = true ↔ dentryName e.data i = tok := by
  rw [strcmpIs_iff htok (zero_mem_dentry he hterm hi), slice_dentry he hi]
  exact Iff.rfl

/-- The number in a directory entry. -/
theorem u32_dentry (he : entryAt m o = e) (hi : i < e.inode.size.toNat / sizeofDentry) :
    m.u32 (o + sizeofInode + sizeofDentry * i + maxFileNameLen) = dentryNumber e.data i := by
  have hs : sizeofDentry = 40 := rfl
  have hm : maxFileNameLen = 32 := rfl
  have hinside := dentry_inside hi
  unfold Mem.u32 dentryNumber
  rw [← slice_data he, Mem.slice_drop_take m _ (by omega), Nat.add_assoc _ (sizeofDentry * i)]

/-- The string that starts at a directory entry inside the mapping is its name. -/
theorem stringAt_dentry {w : Wfs} (he : entryAt w.disk o = e) (hterm : Terminated e.data)
    (hend : o + sizeofInode + e.inode.size.toNat ≤ w.mapped)
    (hi : i < e.inode.size.toNat / sizeofDentry) :
    w.stringAt (o + sizeofInode + sizeofDentry * i) = dentryName e.data i := by
  have hinside := dentry_inside hi
  have hzero := zero_mem_dentry he hterm hi
  have hsplit : w.mapped - (o + sizeofInode + sizeofDentry * i) =
      sizeofDentry + (w.mapped - (o + sizeofInode + sizeofDentry * i) - sizeofDentry) := by
    omega
  unfold stringAt dentryName
  rw [hsplit, Mem.slice_add, cstr_append_of_mem hzero, slice_dentry he hi]

end Entry

/-- The search of `path_to_inode` in the directory entries of a log entry. -/
theorem findDentry_eq_of_range {m : Mem} {o : Nat} {e : Entry} (he : entryAt m o = e)
    (hterm : Terminated e.data) {tok : Bytes} (htok : (0 : UInt8) ∉ tok) (count i : Nat)
    (hcount : i + count ≤ e.inode.size.toNat / sizeofDentry) :
    findDentry m (o + sizeofInode) tok count i =
      ((((List.range' i count).map fun i => (dentryName e.data i, dentryNumber e.data i)).find?
        fun d => d.1 = tok).map Prod.snd).getD minusOne := by
  induction count generalizing i with
  | zero => rfl
  | succ count ih =>
    have hi : i < e.inode.size.toNat / sizeofDentry := by omega
    have hname := strcmpIs_dentry_iff he hterm hi htok
    rw [findDentry, List.range'_succ, List.map_cons, List.find?_cons]
    by_cases heq : dentryName e.data i = tok
    · rw [if_pos (hname.mpr heq), u32_dentry he hi]
      simp [heq]
    · rw [if_neg (fun h => heq (hname.mp h)), ih (i + 1) (by omega)]
      simp [heq]

theorem findDentry_eq {m : Mem} {o : Nat} {e : Entry} (he : entryAt m o = e)
    (hterm : Terminated e.data) {tok : Bytes} (htok : (0 : UInt8) ∉ tok) :
    findDentry m (o + sizeofInode) tok (dentries m o) 0 = e.lookup tok := by
  have hcount : dentries m o = e.inode.size.toNat / sizeofDentry := by
    rw [← he]
    rfl
  rw [hcount, findDentry_eq_of_range he hterm htok _ 0 (by omega)]
  unfold Entry.lookup Entry.dentries
  rw [List.range_eq_range']

/-- The name of the new directory entry of a parent. -/
theorem dentryName_newDentry {heap : Mem} {p : Inode} {data : Bytes} {num : UInt32} {name : Bytes}
    (hlen : name.length + 1 ≤ sizeofDentry) (hzero : (0 : UInt8) ∉ name) :
    dentryName (newDentry heap p data num name) 0 = name := by
  obtain ⟨rest, hrest⟩ := newDentry_name heap p data num name hlen
  unfold dentryName
  rw [Nat.mul_zero, List.drop_zero, List.take_of_length_le (length_newDentry ..).le, hrest]
  exact cstr_append_zero hzero rest

/-- One round of `path_to_inode` from an inode that has a live entry. -/
theorem walkPath_cons {w : Wfs} {n : UInt32} {e : Entry} (he : w.inode n = some e)
    (hterm : Terminated e.data) {tok : Bytes} (htok : (0 : UInt8) ∉ tok) (toks : List Bytes) :
    w.walkPath (w.numberToInode n) (tok :: toks) =
      if e.lookup tok = minusOne then some none
      else w.walkPath (w.numberToInode (e.lookup tok)) toks := by
  obtain ⟨o, ho, hentry⟩ := inode_eq_some he
  rw [ho]
  simp only [walkPath, findDentry_eq hentry hterm htok]

end Wfs

end Cs537.P7
