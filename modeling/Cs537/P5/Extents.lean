import Mathlib.Data.List.GetD
import Cs537.Lib.Splice
import Cs537.P5.Contents

/-!
# Reading and writing files

The bytes of a file are those of its blocks in a row. `bmap` gives the block that holds a byte, and
makes the file longer by a block at most; `readi` and `writei` are reading and overwriting a list of
bytes.
-/

namespace Cs537.P5

open Cs537.Lib

namespace Fs

variable {sb : Superblock} {s s' : Fs} {disk disk' : Nat → Block} {files files' : FileMap}
  {i j b c n k off left : Nat} {addrs addrs' : Addrs} {sh sh' : Shape} {src : Bytes}

/-! ## `bmap` -/

theorem Shape.of_table (h : 12 < n) : (Shape.of n).table = true := decide_eq_true h

theorem Shape.of_no_table (h : ¬ 12 < n) : (Shape.of n).table = false := decide_eq_false h

/-- A block that is there. -/
theorem bmap_held (h : Layout sb s.disk files) (hi : files i = some (addrs, .of n)) (hk : k < n) :
    bmap sb s addrs k = some ⟨s, addrs, slotAddr s.disk addrs (.data k)⟩ := by
  have hle := (h.shaped i addrs _ hi).le
  have hne := h.ne_zero_of_held (t := .data k) hi hk
  unfold bmap
  by_cases h12 : k < 12
  · rw [slotAddr_direct _ _ h12] at hne ⊢
    rw [dif_pos h12, addrOf_of_ne_zero hne]
  · have htable := h.ne_zero_of_held (t := .table) hi (Shape.of_table (by omega))
    have htable' : addrs 12 ≠ 0 := htable
    have hmax : k < maxFile := Nat.lt_of_lt_of_le hk hle
    unfold maxFile at hmax
    rw [slotAddr_indirect _ _ h12, if_neg htable'] at hne ⊢
    rw [dif_neg h12, if_pos (by omega), addrOf_of_ne_zero htable', Option.bind_some]
    unfold entryOf
    rw [if_neg hne]

/-- The block of addresses comes first, if it is missing. -/
theorem grown_bmap_table (hsb : sb.LaidOut) (h : Layout sb s.disk files)
    (hi : files i = some (addrs, .of n)) (hn : ¬ n < 12) {m : Mapped}
    (hm : addrOf sb s addrs 12 = some m) :
    Grown sb s files m.fs (setFile files i m.addrs ⟨n, true⟩) ∧ m.addrs 12 = m.addr := by
  by_cases h12 : n = 12
  · subst h12
    exact grown_table hsb h hi (Shape.of_no_table (Nat.lt_irrefl _)) hm
  · have hshape : Shape.of n = ⟨n, true⟩ := congrArg _ (decide_eq_true (by omega))
    have hne : addrs 12 ≠ 0 := h.ne_zero_of_held (t := .table) hi (Shape.of_table (by omega))
    rw [addrOf_of_ne_zero hne] at hm
    cases hm
    rw [hshape] at hi
    rw [setFile_self hi]
    exact ⟨.refl h, rfl⟩

/-- The next block. -/
theorem grown_bmap_next (hsb : sb.LaidOut) (h : Layout sb s.disk files)
    (hi : files i = some (addrs, .of n)) (hmax : n < maxFile) {r : Mapped}
    (hr : bmap sb s addrs n = some r) :
    Grown sb s files r.fs (setFile files i r.addrs (.of (n + 1))) ∧
      slotAddr r.fs.disk r.addrs (.data n) = r.addr := by
  unfold bmap at hr
  by_cases h12 : n < 12
  · rw [dif_pos h12] at hr
    have hgrown := grown_direct hsb h hi h12 hr
    have hshape : ({ Shape.of n with blocks := n + 1 } : Shape) = .of (n + 1) := by
      unfold Shape.of
      rw [decide_eq_false (by omega), decide_eq_false (by omega)]
    rwa [show (Shape.of n).blocks = n from rfl, hshape] at hgrown
  · have hrange : n - 12 < 128 := by
      unfold maxFile at hmax
      omega
    rw [dif_neg h12, if_pos hrange, Option.bind_eq_some_iff] at hr
    obtain ⟨m, hm, hr⟩ := hr
    obtain ⟨hgrown, haddr⟩ := grown_bmap_table hsb h hi h12 hm
    have hfile : setFile files i m.addrs ⟨n, true⟩ i = some (m.addrs, ⟨n, true⟩) :=
      Function.update_self ..
    have hentry := grown_entry hsb hgrown.layout hfile rfl haddr h12 hmax hr
    have hshape : ({ (⟨n, true⟩ : Shape) with blocks := n + 1 } : Shape) = .of (n + 1) := by
      unfold Shape.of
      rw [decide_eq_true (by omega)]
    have hset : setFile (setFile files i m.addrs ⟨n, true⟩) i r.addrs (.of (n + 1)) =
        setFile files i r.addrs (.of (n + 1)) := Function.update_idem ..
    rw [← hset, ← hshape]
    exact ⟨hgrown.trans hentry.1, hentry.2⟩

/-- `bmap` on a block of the file or the next one. -/
theorem grown_bmap (hsb : sb.LaidOut) (h : Layout sb s.disk files)
    (hi : files i = some (addrs, .of n)) (hk : k ≤ n) (hmax : k < maxFile) {r : Mapped}
    (hr : bmap sb s addrs k = some r) :
    Grown sb s files r.fs (setFile files i r.addrs (.of (max n (k + 1)))) ∧
      slotAddr r.fs.disk r.addrs (.data k) = r.addr := by
  rcases Nat.lt_or_eq_of_le hk with hlt | rfl
  · rw [bmap_held h hi hlt] at hr
    cases hr
    rw [Nat.max_eq_left hlt, setFile_self hi]
    exact ⟨.refl h, rfl⟩
  · rw [Nat.max_eq_right (Nat.le_succ k)]
    exact grown_bmap_next hsb h hi hmax hr

/-! ## The bytes -/

/-- Block `k` of a file. -/
def fileBlock (disk : Nat → Block) (addrs : Addrs) (k : Nat) : Block :=
  disk (slotAddr disk addrs (.data k)).toNat

/-- Byte `o` of a file. -/
def fileByte (disk : Nat → Block) (addrs : Addrs) (o : Nat) : UInt8 :=
  (fileBlock disk addrs (o / bsize)).mem (o % bsize)

/-- The first `size` bytes of a file. -/
def fileBytes (disk : Nat → Block) (addrs : Addrs) (size : Nat) : Bytes :=
  (List.range size).map (fileByte disk addrs)

/-- What is in the blocks of the files stays there. -/
theorem Grown.fileBlock (h : Grown sb s files s' files') (hj : files j = some (addrs, sh))
    (hj' : files' j = some (addrs', sh')) (hk : k < sh.blocks) :
    fileBlock s'.disk addrs' k = fileBlock s.disk addrs k := by
  obtain ⟨addrs₁, sh₁, hfile, hslots⟩ := h.slots j addrs sh hj
  rw [hj'] at hfile
  cases hfile
  unfold Fs.fileBlock
  rw [(hslots (.data k) hk).2]
  exact h.data j k _ (Layout.owns hj hk)

/-- A block of data is overwritten. -/
theorem grown_logWrite (hsb : sb.LaidOut) (h : Layout sb s.disk files)
    (hi : files i = some (addrs, sh)) (hk : k < sh.blocks) (blk : Block) :
    let a := (slotAddr s.disk addrs (.data k)).toNat
    Layout sb (s.logWrite a blk).disk files ∧
      (∀ c < sb.bmapstart, (s.logWrite a blk).disk c = s.disk c) ∧
      (∀ j addrs₁ sh₁, files j = some (addrs₁, sh₁) → ∀ u,
        slotAddr (s.logWrite a blk).disk addrs₁ u = slotAddr s.disk addrs₁ u) ∧
      ∀ j addrs₁ sh₁ l, files j = some (addrs₁, sh₁) → l < sh₁.blocks →
        fileBlock (s.logWrite a blk).disk addrs₁ l =
          if (j, l) = (i, k) then blk else fileBlock s.disk addrs₁ l := by
  intro a
  have hown : Owns s.disk files (i, .data k) a := Layout.owns hi hk
  have hmarked := h.exact.sound hown
  have htables : ∀ j addrs₁ sh₁, files j = some (addrs₁, sh₁) → addrs₁ 12 ≠ 0 →
      (s.logWrite a blk).disk (addrs₁ 12).toNat = s.disk (addrs₁ 12).toNat := by
    intro j addrs₁ sh₁ hj hne
    refine disk_logWrite_of_ne _ _ ?_
    exact h.ne_of_owns (h.owns_table hj hne) hown fun heq => by cases heq
  refine ⟨h.frame (fun c hc => used_congr (disk_logWrite_of_ne _ _ ?_)) hsb.size htables,
    fun c hc => disk_logWrite_of_ne _ _ ?_,
    fun j addrs₁ sh₁ hj => slotAddr_congr (htables j addrs₁ sh₁ hj), fun j addrs₁ sh₁ l hj hl => ?_⟩
  · have hlt := (bblock_lt hc).2
    have hge := hmarked.1
    omega
  · have hlt := sb.bmapstart_lt
    have hge := hmarked.1
    omega
  · have hslot := slotAddr_congr (htables j addrs₁ sh₁ hj) (.data l)
    have hown₁ : Owns s.disk files (j, .data l) (slotAddr s.disk addrs₁ (.data l)).toNat :=
      Layout.owns hj hl
    unfold Fs.fileBlock
    rw [hslot]
    by_cases heq : (j, l) = (i, k)
    · rw [if_pos heq]
      cases heq
      rw [hi] at hj
      cases hj
      exact disk_logWrite_self ..
    · rw [if_neg heq]
      refine disk_logWrite_of_ne _ _ (h.ne_of_owns hown₁ hown ?_)
      rintro ⟨⟩
      exact heq rfl

/-! ## The loops -/

theorem div_bsize_lt (h : off < n * bsize) : off / bsize < n :=
  Nat.div_lt_of_lt_mul (by rwa [Nat.mul_comm])

/-- The part of a block that a step of a loop uses. -/
theorem fileByte_add {o : Nat} (ho : off % bsize + o < bsize) :
    fileByte disk addrs (off + o) = (fileBlock disk addrs (off / bsize)).mem (off % bsize + o) := by
  unfold fileByte
  unfold bsize at ho ⊢
  rw [show (off + o) / 512 = off / 512 by omega, show (off + o) % 512 = off % 512 + o by omega]

/-- `readi` finds all its blocks. -/
theorem readLoop_eq (h : Layout sb s.disk files) (hi : files i = some (addrs, .of n)) :
    ∀ fuel off left, left ≤ fuel → off + left ≤ n * bsize →
      readLoop sb fuel s addrs off left =
        some (s, addrs, (List.range left).map fun o => fileByte s.disk addrs (off + o)) := by
  intro fuel
  induction fuel with
  | zero =>
    intro off left hleft _
    rw [Nat.le_zero.mp hleft]
    rfl
  | succ fuel ih =>
    intro off left hleft hend
    unfold readLoop
    by_cases hzero : left = 0
    · rw [if_pos hzero, hzero]
      rfl
    · have hmod : off % bsize < bsize := Nat.mod_lt _ (by decide)
      rw [if_neg hzero, bmap_held h hi (div_bsize_lt (by omega)), Option.bind_some]
      dsimp only
      rw [ih (off + min left (bsize - off % bsize)) _ (by omega) (by omega), Option.map_some]
      dsimp only
      congr 3
      generalize hm : min left (bsize - off % bsize) = m
      have hle : left = m + (left - m) := by omega
      conv => rhs; rw [hle, List.range_add, List.map_append, List.map_map]
      refine congrArg₂ _ ?_ ?_
      · refine List.map_congr_left fun o ho => ?_
        have ho' := List.mem_range.mp ho
        rw [fileByte_add (by omega)]
        rfl
      · refine List.map_congr_left fun o _ => ?_
        rw [Function.comp_apply, Nat.add_assoc]

/-- What a part of the loop of `writei` has done, on file `i` of `n` blocks before and `n'` then. -/
structure Written (sb : Superblock) (s : Fs) (files : FileMap) (i : Nat) (addrs : Addrs)
    (n off : Nat) (src : Bytes) (s' : Fs) (addrs' : Addrs) (n' : Nat) : Prop where
  layout : Layout sb s'.disk (setFile files i addrs' (.of n'))
  blocks : n' = if src = [] then n else max n ((off + src.length + (bsize - 1)) / bsize)
  inodes : ∀ c < sb.bmapstart, s'.disk c = s.disk c
  others : ∀ j addrs₁ sh₁ k, j ≠ i → files j = some (addrs₁, sh₁) → k < sh₁.blocks →
    fileBlock s'.disk addrs₁ k = fileBlock s.disk addrs₁ k
  bytes : ∀ o, o < n * bsize ∨ (off ≤ o ∧ o < off + src.length) →
    fileByte s'.disk addrs' o = Mem.write (fileByte s.disk addrs) off src o

theorem Written.nil (h : Layout sb s.disk files) (hi : files i = some (addrs, .of n)) (off : Nat) :
    Written sb s files i addrs n off [] s addrs n where
  layout := by rwa [setFile_self hi]
  blocks := rfl
  inodes _ _ := rfl
  others _ _ _ _ _ _ _ := rfl
  bytes o _ := (Mem.write_of_disjoint (Nat.lt_or_ge o off)).symm

/-- One block of the loop of `writei`. -/
theorem written_chunk (hsb : sb.LaidOut) (h : Layout sb s.disk files)
    (hi : files i = some (addrs, .of n)) (hoff : off / bsize ≤ n) (hne : src ≠ [])
    (hfits : off % bsize + src.length ≤ bsize) (hmax : off < maxFile * bsize) {r : Mapped}
    (hr : bmap sb s addrs (off / bsize) = some r) :
    Written sb s files i addrs n off src
      (r.fs.logWrite r.addr.toNat ((r.fs.disk r.addr.toNat).write (off % bsize) src)) r.addrs
      (max n (off / bsize + 1)) := by
  obtain ⟨hgrown, haddr⟩ := grown_bmap hsb h hi hoff (div_bsize_lt hmax) hr
  generalize hfiles : setFile files i r.addrs (.of (max n (off / bsize + 1))) = files' at hgrown
  have hi' : files' i = some (r.addrs, .of (max n (off / bsize + 1))) := by
    rw [← hfiles]
    exact Function.update_self ..
  have hothers : ∀ j, j ≠ i → files' j = files j := by
    intro j hj
    rw [← hfiles]
    exact Function.update_of_ne hj ..
  have hk : off / bsize < (Shape.of (max n (off / bsize + 1))).blocks :=
    Nat.lt_of_lt_of_le (Nat.lt_succ_self _) (Nat.le_max_right _ _)
  obtain ⟨hlayout, hinodes, -, hblocks⟩ := grown_logWrite hsb hgrown.layout hi' hk
    ((r.fs.disk r.addr.toNat).write (off % bsize) src)
  rw [haddr] at hlayout hinodes hblocks
  have hpos := List.length_pos_iff.mpr hne
  refine ⟨hfiles ▸ hlayout, ?_, fun c hc => (hinodes c hc).trans (hgrown.inodes c hc),
    fun j addrs₁ sh₁ l hj hfile hl => ?_, fun o ho => ?_⟩
  · rw [if_neg hne]
    unfold bsize at hfits ⊢
    omega
  · have hfile' : files' j = some (addrs₁, sh₁) := (hothers j hj).trans hfile
    rw [hblocks j addrs₁ sh₁ l hfile' hl, if_neg fun heq => hj (congrArg Prod.fst heq)]
    exact hgrown.fileBlock hfile hfile' hl
  · have hold : o < n * bsize → fileBlock r.fs.disk r.addrs (o / bsize) =
        fileBlock s.disk addrs (o / bsize) := fun ho => hgrown.fileBlock hi hi' (div_bsize_lt ho)
    have hlt : o / bsize < (Shape.of (max n (off / bsize + 1))).blocks := by
      refine show o / bsize < max n (off / bsize + 1) from ?_
      unfold bsize at ho hfits ⊢
      omega
    unfold fileByte
    rw [hblocks i r.addrs _ _ hi' hlt]
    by_cases heq : o / bsize = off / bsize
    · rw [if_pos (by rw [heq]), Block.mem_write hfits]
      have hblock : r.fs.disk r.addr.toNat = fileBlock r.fs.disk r.addrs (o / bsize) := by
        unfold fileBlock
        rw [heq, haddr]
      unfold Mem.write
      have hlow : o % bsize < off % bsize ↔ o < off := by
        unfold bsize at heq ⊢
        omega
      have hindex : ¬ o < off → o % bsize - off % bsize = o - off := by
        intro hge
        unfold bsize at heq ⊢
        omega
      by_cases hbefore : o < off
      · rw [if_pos (hlow.mpr hbefore), if_pos hbefore, hblock, hold (by omega)]
      · rw [if_neg (mt hlow.mp hbefore), if_neg hbefore, hindex hbefore]
        cases hget : src[o - off]? with
        | some x => rfl
        | none =>
          have hout := List.getElem?_eq_none_iff.mp hget
          rw [Option.getD_none, Option.getD_none, hblock, hold (by omega)]
    · have hout : o < off ∨ off + src.length ≤ o := by
        unfold bsize at heq hfits
        omega
      have ho' : o < n * bsize := by omega
      rw [if_neg fun hp => heq (congrArg Prod.snd hp), Mem.write_of_disjoint hout, hold ho']

/-- One pass of the loop of `writei`, and what the next one starts from. -/
theorem written_pass (hsb : sb.LaidOut) (h : Layout sb s.disk files)
    (hi : files i = some (addrs, .of n)) (hoff : off / bsize ≤ n) (hnil : src ≠ [])
    (hmax : off + src.length ≤ maxFile * bsize) {m : Nat}
    (hm : min src.length (bsize - off % bsize) = m) {r : Mapped}
    (hr : bmap sb s addrs (off / bsize) = some r) :
    (0 < m ∧ m ≤ src.length) ∧
      Written sb s files i addrs n off (src.take m)
        (r.fs.logWrite r.addr.toNat ((r.fs.disk r.addr.toNat).write (off % bsize) (src.take m)))
        r.addrs (max n (off / bsize + 1)) ∧
      (off + m) / bsize ≤ max n (off / bsize + 1) ∧
      off + m + (src.drop m).length ≤ maxFile * bsize := by
  have hpos := List.length_pos_iff.mpr hnil
  have hmod : off % bsize < bsize := Nat.mod_lt _ (by decide)
  have hlength : (src.take m).length = m := List.length_take_of_le (by omega)
  have hne : src.take m ≠ [] := fun heq => by
    rw [heq] at hlength
    exact absurd hlength (by rw [List.length_nil]; omega)
  refine ⟨⟨by omega, by omega⟩,
    written_chunk hsb h hi hoff hne (by omega) (by omega) hr, ?_, ?_⟩
  · unfold bsize at hm ⊢
    omega
  · rw [List.length_drop]
    omega

/-- A part of the loop and the rest of it. -/
theorem Written.trans {m n₁ n' : Nat} {s₁ : Fs} {addrs₁ : Addrs} (hm : m ≤ src.length)
    (hpos : 0 < m)
    (h : Written sb s files i addrs n off (src.take m) s₁ addrs₁ n₁)
    (h' : Written sb s₁ (setFile files i addrs₁ (.of n₁)) i addrs₁ n₁ (off + m) (src.drop m) s'
      addrs' n') : Written sb s files i addrs n off src s' addrs' n' where
  layout := by
    have hlayout := h'.layout
    unfold setFile at hlayout ⊢
    rwa [Function.update_idem] at hlayout
  blocks := by
    have hlength : (src.take m).length = m := List.length_take_of_le hm
    have hne : src.take m ≠ [] := fun hnil => by
      rw [hnil] at hlength
      exact absurd hlength (Nat.ne_of_lt hpos)
    have hne' : src ≠ [] := fun hnil => by
      rw [hnil] at hm
      exact absurd hm (Nat.not_le_of_lt hpos)
    have hfirst := h.blocks
    have hrest := h'.blocks
    rw [if_neg hne, hlength] at hfirst
    rw [if_neg hne', hrest, hfirst]
    by_cases hnil : src.drop m = []
    · have hlen := List.drop_eq_nil_iff.mp hnil
      rw [if_pos hnil, Nat.le_antisymm hm hlen]
    · rw [if_neg hnil, List.length_drop]
      unfold bsize
      omega
  inodes c hc := (h'.inodes c hc).trans (h.inodes c hc)
  others j addrs₂ sh₂ k hj hfile hk := by
    refine (h'.others j addrs₂ sh₂ k hj ?_ hk).trans (h.others j addrs₂ sh₂ k hj hfile hk)
    exact (Function.update_of_ne hj ..).trans hfile
  bytes o ho := by
    have hlength : (src.take m).length = m := List.length_take_of_le hm
    have hsplit := Mem.write_append (fileByte s.disk addrs) off (src.take m) (src.drop m)
    have hbytes := h.bytes o
    rw [List.take_append_drop, hlength] at hsplit
    rw [hlength] at hbytes
    rw [hsplit]
    have hdom : o < n₁ * bsize ∨ (off + m ≤ o ∧ o < off + m + (src.drop m).length) := by
      have hfirst := h.blocks
      rw [List.length_drop]
      by_cases hin : off + m ≤ o
      · by_cases hend : o < off + src.length
        · exact .inr ⟨hin, by omega⟩
        · left
          have ho' : o < n * bsize := ho.resolve_right fun hr => hend hr.2
          refine Nat.lt_of_lt_of_le ho' (Nat.mul_le_mul_right _ ?_)
          rw [hfirst]
          split
          · exact Nat.le_refl _
          · exact Nat.le_max_left _ _
      · left
        rcases ho with ho | ho
        · refine Nat.lt_of_lt_of_le ho (Nat.mul_le_mul_right _ ?_)
          rw [hfirst]
          split
          · exact Nat.le_refl _
          · exact Nat.le_max_left _ _
        · have hne : src.take m ≠ [] := fun hnil => by
            rw [hnil] at hlength
            exact absurd hlength (Nat.ne_of_lt hpos)
          rw [if_neg hne, hlength] at hfirst
          rw [hfirst]
          unfold bsize
          omega
    rw [h'.bytes o hdom]
    -- beyond the first part the bytes come from the second
    unfold Mem.write
    by_cases hin : o < off + m
    · rw [if_pos hin, if_pos hin]
      exact hbytes (ho.imp_right fun hr => ⟨hr.1, hin⟩)
    · rw [if_neg hin, if_neg hin]
      cases hget : (src.drop m)[o - (off + m)]? with
      | some x => rfl
      | none =>
        have hout := List.getElem?_eq_none_iff.mp hget
        rw [List.length_drop] at hout
        rw [Option.getD_none, Option.getD_none]
        exact hbytes (.inl (ho.resolve_right fun hr => by omega))

theorem written_writeLoop (hsb : sb.LaidOut) : ∀ fuel (s : Fs) (files : FileMap) addrs n off src,
    src.length ≤ fuel → Layout sb s.disk files → files i = some (addrs, .of n) →
    off / bsize ≤ n → off + src.length ≤ maxFile * bsize →
    writeLoop sb fuel s addrs off src = some (s', addrs') →
    ∃ n', Written sb s files i addrs n off src s' addrs' n' := by
  intro fuel
  induction fuel with
  | zero =>
    intro s files addrs n off src hfuel h hi hoff hmax hrun
    have hnil := List.length_eq_zero_iff.mp (Nat.le_zero.mp hfuel)
    subst hnil
    cases hrun
    exact ⟨n, .nil h hi off⟩
  | succ fuel ih =>
    intro s files addrs n off src hfuel h hi hoff hmax hrun
    unfold writeLoop at hrun
    by_cases hnil : src = []
    · subst hnil
      rw [if_pos rfl] at hrun
      cases hrun
      exact ⟨n, .nil h hi off⟩
    · rw [if_neg hnil, Option.bind_eq_some_iff] at hrun
      obtain ⟨r, hr, hrun⟩ := hrun
      dsimp only at hrun
      generalize hm : min src.length (bsize - off % bsize) = m at hrun
      obtain ⟨⟨hpos, hle⟩, hchunk, hnext, hmax'⟩ := written_pass hsb h hi hoff hnil hmax hm hr
      have hfile : setFile files i r.addrs (.of (max n (off / bsize + 1))) i =
          some (r.addrs, .of (max n (off / bsize + 1))) := Function.update_self ..
      obtain ⟨n', hrest⟩ := ih _ _ _ _ _ _ (by rw [List.length_drop]; omega) hchunk.layout hfile
        hnext hmax' hrun
      exact ⟨n', hchunk.trans hle hpos hrest⟩

/-- Within the blocks of the file the addresses stay. -/
theorem writeLoop_addrs (hsb : sb.LaidOut) (hi : files i = some (addrs, .of n)) :
    ∀ fuel (s : Fs) off src, Layout sb s.disk files → off + src.length ≤ n * bsize →
      writeLoop sb fuel s addrs off src = some (s', addrs') → addrs' = addrs := by
  intro fuel
  induction fuel with
  | zero =>
    intro s off src _ _ hrun
    cases hrun
    rfl
  | succ fuel ih =>
    intro s off src h hend hrun
    unfold writeLoop at hrun
    by_cases hnil : src = []
    · rw [if_pos hnil] at hrun
      cases hrun
      rfl
    · have hpos := List.length_pos_iff.mpr hnil
      have hk : off / bsize < n := div_bsize_lt (by omega)
      rw [if_neg hnil, bmap_held h hi hk, Option.bind_some] at hrun
      dsimp only at hrun
      obtain ⟨hlayout, -⟩ := grown_logWrite hsb h hi (k := off / bsize) hk
        ((s.disk (slotAddr s.disk addrs (.data (off / bsize))).toNat).write (off % bsize)
          (src.take (min src.length (bsize - off % bsize))))
      exact ih _ _ _ hlayout (by rw [List.length_drop]; omega) hrun

end Fs

end Cs537.P5
