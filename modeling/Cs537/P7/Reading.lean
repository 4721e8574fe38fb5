import Cs537.P7.Names
import Cs537.P7.Resolving

/-!
# Reading a slice of a file

`wfs_read` cuts the requested size down to `cur_inode->size - offset`, a difference that it takes
as a `size_t`. For an offset behind the content the difference wraps around, and the call copies
what lies behind the entry in the log.
-/

namespace Cs537.P7

open Cs537.Lib

namespace Wfs

variable {w : Wfs} {path : Bytes} {o size offset : Nat}

/-- The `memcpy` of `wfs_read` reads nothing outside the data of the entry at offset `o`. -/
def ReadsInside (w : Wfs) (o size : Nat) (offset : Int) : Prop :=
  let count := readSize (inodeAt w.disk o).size size offset
  count = 0 ∨ 0 ≤ offset ∧ offset + count ≤ (inodeAt w.disk o).size.toNat

/-- A read of `size` bytes at `offset` of the file with the entry at offset `o` returns how many of
them there are, copies exactly these and reads nothing else. -/
def ReadsSlice (w : Wfs) (path : Bytes) (o size offset : Nat) : Prop :=
  let c := (entryAt w.disk o).data
  ∃ bs, w.wfsRead path size offset = some (.ok bs) ∧
    readResult bs =
      ((if offset ≤ c.length then min size (c.length - offset) else 0 : Nat) : Int) ∧
    bs = (c.drop offset).take size ∧ w.ReadsInside o size offset

/-- The `int` that `wfs_read` returns is the number of bytes if that is less than 2 GiB. -/
theorem readResult_eq_iff {bs : Bytes} (h : bs.length < 2 ^ 32) :
    readResult bs = bs.length ↔ bs.length < 2 ^ 31 := by
  unfold readResult
  omega

/-- Behind the content the difference wraps around, and some bytes are read. -/
theorem readSize_pos_of_lt {fileSize : UInt32} (hpast : fileSize.toNat < offset)
    (hoffset : offset < 2 ^ 63) (hsize : 0 < size) : 0 < readSize fileSize size offset := by
  unfold readSize
  simp only
  split <;> omega

theorem readSize_zero (fileSize : UInt32) (offset : Int) : readSize fileSize 0 offset = 0 := by
  unfold readSize
  simp only
  rw [if_neg (by omega)]

/-- A read of nothing reads nothing. -/
theorem wfsRead_zero (hresolves : w.pathToInode path = some (some o)) (offset : Int) :
    w.wfsRead path 0 offset = some (.ok []) := by
  unfold wfsRead
  rw [hresolves]
  simp only [readSize_zero, true_or, if_true]
  rfl

/-- A read behind the content is inside it only if it reads nothing. -/
theorem readsInside_past_iff (hpast : (inodeAt w.disk o).size.toNat < offset)
    (hoffset : offset < 2 ^ 63) : w.ReadsInside o size offset ↔ size = 0 := by
  unfold ReadsInside
  constructor
  · intro hinside
    by_contra hne
    have hpos := readSize_pos_of_lt hpast hoffset (Nat.pos_of_ne_zero hne)
    omega
  · rintro rfl
    exact .inl (readSize_zero _ _)

/-- In every file system that calls reach from a fresh image, a read of what a path leads to returns
the requested slice if and only if it starts inside the content or asks for nothing, and the slice has
less than 2 GiB. -/
theorem read_slice_iff {image : Image} {env : Env} {w₀ : Wfs} {cs : List Call}
    (hlen : sizeofSb + sizeofInode ≤ image.len) (hmount : mount (mkfs image env) = some w₀)
    (run : Run (guarded Ordinary (stepOf Wfs.next)) w₀ cs w)
    (hresolves : w.pathToInode path = some (some o)) (hoffset : offset < 2 ^ 63) :
    w.ReadsSlice path o size offset ↔
      (offset ≤ (entryAt w.disk o).data.length ∨ size = 0) ∧
        min size ((entryAt w.disk o).data.length - offset) < 2 ^ 31 := by
  obtain ⟨es, h⟩ := sound_of_run hlen hmount run
  have hsize : (entryAt w.disk o).data.length = (inodeAt w.disk o).size.toNat := (entryAt w.disk o).fits
  have hlt := (inodeAt w.disk o).size.toNat_lt
  by_cases hinside : offset ≤ (entryAt w.disk o).data.length
  · have hread := h.holds.read_slice h.head_le hresolves rfl hinside size
    have hlength : (((entryAt w.disk o).data.drop offset).take size).length =
        min size ((entryAt w.disk o).data.length - offset) := by
      simp
    have hresult := @readResult_eq_iff (((entryAt w.disk o).data.drop offset).take size)
      (by omega)
    rw [hlength] at hresult
    have hin : w.ReadsInside o size offset := by
      unfold ReadsInside
      rw [readSize_of_le size (by omega)]
      omega
    constructor
    · rintro ⟨bs, hbs, hreturned, rfl, -⟩
      rw [if_pos hinside] at hreturned
      exact ⟨.inl hinside, hresult.mp hreturned⟩
    · rintro ⟨-, hsmall⟩
      refine ⟨_, hread, ?_, rfl, hin⟩
      rw [if_pos hinside]
      exact hresult.mpr hsmall
  · have hpast : w.ReadsInside o size offset ↔ size = 0 :=
      readsInside_past_iff (by omega) hoffset
    constructor
    · rintro ⟨-, -, -, -, hin⟩
      have hzero := hpast.mp hin
      exact ⟨.inr hzero, by omega⟩
    · rintro ⟨hzero, -⟩
      obtain rfl := hzero.resolve_left hinside
      refine ⟨[], wfsRead_zero hresolves _, ?_, by simp, hpast.mpr rfl⟩
      rw [if_neg hinside]
      decide

/-- A fresh page with the empty file `/a`, whose entry ends at 180. -/
theorem fresh_empty_file :
    ∃ w₀ w, mount (mkfs onePage quietEnv) = some w₀ ∧
      Run (guarded Ordinary (stepOf Wfs.next)) w₀ [mknodA] w ∧
      w.pathToInode pathA = some (some 136) ∧ (inodeAt w.disk 136).IsReg ∧
      (entryAt w.disk 136).data = [] ∧ w.wfsRead pathA 1 1 = some (.ok [0]) := by
  have hobs : ((mount (mkfs onePage quietEnv)).bind fun w =>
      (runOf (fun w c => if w.Ordinary c then w.next c else none) w [mknodA]).map fun u =>
        (decide (u.pathToInode pathA = some (some 136) ∧ (inodeAt u.disk 136).IsReg ∧
          (entryAt u.disk 136).data = []), (u.wfsRead pathA 1 1).map Except.toOption)) =
      some (true, some (some [0])) := by decide +kernel
  obtain ⟨w₀, hmount, hobs⟩ := Option.bind_eq_some_iff.mp hobs
  obtain ⟨w, hrun, hobs⟩ := Option.map_eq_some_iff.mp hobs
  simp only [Prod.mk.injEq, decide_eq_true_eq] at hobs
  obtain ⟨⟨hresolves, hreg, hempty⟩, hread⟩ := hobs
  refine ⟨w₀, w, hmount, run_guarded_of_runOf hrun, hresolves, hreg, hempty, ?_⟩
  obtain ⟨result, hresult, hok⟩ := Option.map_eq_some_iff.mp hread
  cases result with
  | error => cases hok
  | ok bs =>
    rw [hresult, Option.some.inj hok]

/-- The theorem at a read of one byte at the start of the empty file. -/
theorem read_slice_iff_empty_file :
    ∃ w₀ w, mount (mkfs onePage quietEnv) = some w₀ ∧
      Run (guarded Ordinary (stepOf Wfs.next)) w₀ [mknodA] w ∧ w.ReadsSlice pathA 136 1 0 := by
  obtain ⟨w₀, w, hmount, hrun, hresolves, -, hempty, -⟩ := fresh_empty_file
  refine ⟨w₀, w, hmount, hrun,
    (read_slice_iff (by decide) hmount hrun hresolves (by decide)).mpr ⟨.inl (Nat.zero_le _), ?_⟩⟩
  rw [hempty]
  decide

/-- A read of one byte at offset 1 of the empty file returns the byte behind its entry. -/
theorem read_past_end_leaks :
    ∃ w₀ w, mount (mkfs onePage quietEnv) = some w₀ ∧
      Run (guarded Ordinary (stepOf Wfs.next)) w₀ [mknodA] w ∧
      w.pathToInode pathA = some (some 136) ∧ (inodeAt w.disk 136).IsReg ∧
      (entryAt w.disk 136).data = [] ∧ w.wfsRead pathA 1 1 = some (.ok [0]) ∧
      ¬ w.ReadsSlice pathA 136 1 1 := by
  obtain ⟨w₀, w, hmount, hrun, hresolves, hreg, hempty, hread⟩ := fresh_empty_file
  refine ⟨w₀, w, hmount, hrun, hresolves, hreg, hempty, hread, ?_⟩
  rintro ⟨bs, hbs, -, hslice, -⟩
  rw [Nat.cast_one, hread, Option.some.injEq, Except.ok.injEq] at hbs
  rw [hempty, ← hbs] at hslice
  exact absurd hslice (by decide)

end Wfs

end Cs537.P7
