import Mathlib.Data.Finset.Card
import Mathlib.Order.Interval.Finset.Nat
import Cs537.P5.Logging
import Cs537.P5.Volume

/-!
# What operations log

`filewrite` splits its writes so that one transaction logs no more than `MAXOPBLOCKS` blocks. Here
is how many different blocks the operations on files log, at most.
-/

namespace Cs537.P5

open Cs537.Lib

namespace Fs

variable {sb : Superblock} {s s' : Fs} {files : FileMap} {i n k off b c : Nat}
  {addrs addrs' : Addrs} {src : Bytes} {r : Mapped}

theorem logged_addrOf (hsb : sb.LaidOut) (h : Layout sb s.disk files) {j : Fin 13}
    (hr : addrOf sb s addrs j = some r) : ∃ l, r.fs.logged = s.logged ++ l ∧
      ∀ c ∈ l, addrs j = 0 ∧ (c = r.addr.toNat ∨ c = sb.bblock r.addr.toNat) := by
  by_cases hzero : addrs j = 0
  · obtain ⟨s', b, hb, rfl⟩ := addrOf_of_zero hzero hr
    have hal := allocated_balloc h.metadata hb
    refine ⟨_, hal.logged, fun c hc => ⟨hzero, ?_⟩⟩
    rw [toNat_ofNat_block hsb hal.lt]
    rcases List.mem_cons.mp hc with rfl | hc
    · exact .inr rfl
    · exact .inl (List.mem_singleton.mp hc)
  · rw [addrOf_of_ne_zero hzero] at hr
    cases hr
    exact ⟨[], (List.append_nil _).symm, fun _ hc => absurd hc List.not_mem_nil⟩

theorem logged_entryOf (hsb : sb.LaidOut) {m : Mapped} (h : Layout sb m.fs.disk files)
    (hr : entryOf sb m k = some r) : r.addrs = m.addrs ∧ ∃ l, r.fs.logged = m.fs.logged ++ l ∧
      ∀ c ∈ l, (m.fs.disk m.addr.toNat).word k = 0 ∧
        (c = r.addr.toNat ∨ c = sb.bblock r.addr.toNat ∨ c = m.addr.toNat) := by
  unfold entryOf at hr
  by_cases hzero : (m.fs.disk m.addr.toNat).word k = 0
  · rw [if_pos hzero, Option.map_eq_some_iff] at hr
    obtain ⟨⟨s', b⟩, hb, rfl⟩ := hr
    have hal := allocated_balloc h.metadata hb
    refine ⟨rfl, [sb.bblock b, b] ++ [m.addr.toNat], ?_, fun c hc => ⟨hzero, ?_⟩⟩
    · show s'.logged ++ [m.addr.toNat] = _
      rw [hal.logged, List.append_assoc]
    · dsimp only
      rw [toNat_ofNat_block hsb hal.lt]
      simp only [List.cons_append, List.nil_append, List.mem_cons, List.not_mem_nil, or_false] at hc
      rcases hc with rfl | rfl | rfl
      · exact .inr (.inl rfl)
      · exact .inl rfl
      · exact .inr (.inr rfl)
  · rw [if_neg hzero] at hr
    cases hr
    exact ⟨rfl, [], (List.append_nil _).symm, fun _ hc => absurd hc List.not_mem_nil⟩

/-- `bmap` logs something only for a new block, and only blocks that it allocates or that hold their
addresses and marks. -/
theorem logged_bmap (hsb : sb.LaidOut) (h : Layout sb s.disk files)
    (hi : files i = some (addrs, .of n)) (hk : k ≤ n) (hmax : k < maxFile)
    (hr : bmap sb s addrs k = some r) : ∃ l, r.fs.logged = s.logged ++ l ∧
      ∀ c ∈ l, n ≤ k ∧ ((c = r.addr.toNat ∨ c = sb.bblock r.addr.toNat) ∨
        (12 ≤ k ∧ (c = (r.addrs 12).toNat ∨ c = sb.bblock (r.addrs 12).toNat))) := by
  rcases Nat.lt_or_eq_of_le hk with hlt | rfl
  · rw [bmap_held h hi hlt] at hr
    cases hr
    exact ⟨[], (List.append_nil _).symm, fun _ hc => absurd hc List.not_mem_nil⟩
  unfold bmap at hr
  by_cases h12 : k < 12
  · rw [dif_pos h12] at hr
    obtain ⟨l, hlogged, hl⟩ := logged_addrOf hsb h hr
    exact ⟨l, hlogged, fun c hc => ⟨Nat.le_refl k, .inl (hl c hc).2⟩⟩
  · have hrange : k - 12 < 128 := by
      unfold maxFile at hmax
      omega
    rw [dif_neg h12, if_pos hrange, Option.bind_eq_some_iff] at hr
    obtain ⟨m, hm, hr⟩ := hr
    obtain ⟨hgrown, haddr⟩ := grown_bmap_table hsb h hi h12 hm
    obtain ⟨l, hlogged, hl⟩ := logged_addrOf hsb h hm
    obtain ⟨haddrs, l', hlogged', hl'⟩ := logged_entryOf hsb hgrown.layout hr
    refine ⟨l ++ l', by rw [hlogged', hlogged, List.append_assoc], fun c hc => ⟨Nat.le_refl k, ?_⟩⟩
    rw [haddrs, haddr]
    rcases List.mem_append.mp hc with hc | hc
    · exact .inr ⟨Nat.le_of_not_lt h12, (hl c hc).2⟩
    · rcases (hl' c hc).2 with hc | hc | hc
      · exact .inl (.inl hc)
      · exact .inl (.inr hc)
      · exact .inr ⟨Nat.le_of_not_lt h12, .inl hc⟩

/-- The blocks that a write may log, but for the inode block: those of its bytes, the bitmap blocks
of the new ones, and the block of addresses with its bitmap block. -/
def Touched (sb : Superblock) (disk : Nat → Block) (addrs : Addrs) (n off len c : Nat) : Prop :=
  (∃ k, off / bsize ≤ k ∧ k * bsize < off + len ∧ (c = (slotAddr disk addrs (.data k)).toNat ∨
      (n ≤ k ∧ c = sb.bblock (slotAddr disk addrs (.data k)).toNat))) ∨
    c = (slotAddr disk addrs .table).toNat ∨ c = sb.bblock (slotAddr disk addrs .table).toNat

/-- What a part of the loop of `writei` has logged, and that it moves no block. -/
structure Costs (sb : Superblock) (s : Fs) (addrs : Addrs) (n off len : Nat) (s' : Fs)
    (addrs' : Addrs) : Prop where
  slots : ∀ t, (Shape.of n).Held t → slotAddr s'.disk addrs' t = slotAddr s.disk addrs t
  logged : ∃ l, s'.logged = s.logged ++ l ∧ ∀ c ∈ l, Touched sb s'.disk addrs' n off len c

theorem Costs.nil (sb : Superblock) (s : Fs) (addrs : Addrs) (n off len : Nat) :
    Costs sb s addrs n off len s addrs :=
  ⟨fun _ _ => rfl, [], (List.append_nil _).symm, fun _ hc => absurd hc List.not_mem_nil⟩

/-- One block of the loop and the rest of it. -/
theorem costs_chunk (hsb : sb.LaidOut) (h : Layout sb s.disk files)
    (hi : files i = some (addrs, .of n)) (hoff : off / bsize ≤ n) (hmax : off < maxFile * bsize)
    (hr : bmap sb s addrs (off / bsize) = some r) (blk : Block) {m len : Nat} (hm : m ≤ len)
    (hlen : 0 < len)
    (hrest : Costs sb (r.fs.logWrite r.addr.toNat blk) r.addrs (max n (off / bsize + 1)) (off + m)
      (len - m) s' addrs') : Costs sb s addrs n off len s' addrs' := by
  have hk := div_bsize_lt hmax
  obtain ⟨hgrown, haddr⟩ := grown_bmap hsb h hi hoff hk hr
  obtain ⟨l, hlogged, hl⟩ := logged_bmap hsb h hi hoff hk hr
  have hle : n ≤ max n (off / bsize + 1) := Nat.le_max_left _ _
  have hheld : (Shape.of (max n (off / bsize + 1))).Held (.data (off / bsize)) :=
    Nat.lt_of_lt_of_le (Nat.lt_succ_self _) (Nat.le_max_right _ _)
  have hfile : setFile files i r.addrs (.of (max n (off / bsize + 1))) i =
      some (r.addrs, .of (max n (off / bsize + 1))) := Function.update_self ..
  obtain ⟨-, -, hmoved, -⟩ := grown_logWrite hsb hgrown.layout hfile hheld blk
  have hsame : ∀ t, slotAddr (r.fs.logWrite r.addr.toNat blk).disk r.addrs t =
      slotAddr r.fs.disk r.addrs t := by
    rw [haddr] at hmoved
    exact hmoved i _ _ hfile
  have hfinal : slotAddr s'.disk addrs' (.data (off / bsize)) = r.addr := by
    rw [hrest.slots _ hheld, hsame, haddr]
  refine ⟨fun t ht => ?_, ?_⟩
  · obtain ⟨addrs₁, sh₁, hfile₁, hslots⟩ := hgrown.slots i _ _ hi
    rw [hfile] at hfile₁
    cases hfile₁
    obtain ⟨ht', heq⟩ := hslots t ht
    rw [hrest.slots t ht', hsame, heq]
  · obtain ⟨l', hlogged', hl'⟩ := hrest.logged
    refine ⟨l ++ [r.addr.toNat] ++ l', ?_, fun c hc => ?_⟩
    · rw [hlogged']
      show r.fs.logged ++ [r.addr.toNat] ++ l' = _
      rw [hlogged]
      simp only [List.append_assoc]
    · have hmine : ∀ c, c = r.addr.toNat ∨ (n ≤ off / bsize ∧ c = sb.bblock r.addr.toNat) →
          Touched sb s'.disk addrs' n off len c := by
        intro c hc
        refine .inl ⟨off / bsize, Nat.le_refl _, ?_, ?_⟩
        · have := Nat.div_mul_le_self off bsize
          omega
        · rw [hfinal]
          exact hc
      rcases List.mem_append.mp hc with hc | hc
      · rcases List.mem_append.mp hc with hc | hc
        · obtain ⟨hnew, (hc | hc) | ⟨h12, hc⟩⟩ := hl c hc
          · exact hmine c (.inl hc)
          · exact hmine c (.inr ⟨hnew, hc⟩)
          · -- the block of addresses is there from now on
            have htable : slotAddr s'.disk addrs' .table = r.addrs 12 :=
              (hrest.slots .table (decide_eq_true (by omega))).trans (hsame .table)
            unfold Touched
            rw [htable]
            exact .inr hc
        · exact hmine c (.inl (List.mem_singleton.mp hc))
      · rcases hl' c hc with ⟨k, hlo, hhi, hc⟩ | hc
        · refine .inl ⟨k, Nat.le_trans (Nat.div_le_div_right (Nat.le_add_right off m)) hlo,
            by omega, hc.imp_right fun hnew => ⟨Nat.le_trans hle hnew.1, hnew.2⟩⟩
        · exact .inr hc

theorem costs_writeLoop (hsb : sb.LaidOut) : ∀ fuel (s : Fs) (files : FileMap) addrs n off src,
    src.length ≤ fuel → Layout sb s.disk files → files i = some (addrs, .of n) →
    off / bsize ≤ n → off + src.length ≤ maxFile * bsize →
    writeLoop sb fuel s addrs off src = some (s', addrs') →
    Costs sb s addrs n off src.length s' addrs' := by
  intro fuel
  induction fuel with
  | zero =>
    intro s files addrs n off src _ _ _ _ _ hrun
    cases hrun
    exact .nil sb _ _ n off _
  | succ fuel ih =>
    intro s files addrs n off src hfuel h hi hoff hmax hrun
    unfold writeLoop at hrun
    by_cases hnil : src = []
    · rw [if_pos hnil] at hrun
      cases hrun
      exact .nil sb _ _ n off _
    · rw [if_neg hnil, Option.bind_eq_some_iff] at hrun
      obtain ⟨r, hr, hrun⟩ := hrun
      have hmod : off % bsize < bsize := Nat.mod_lt _ (by decide)
      dsimp only at hrun
      generalize hm : min src.length (bsize - off % bsize) = m at hrun
      obtain ⟨⟨hpos, hle⟩, hchunk, hnext, hmax'⟩ := written_pass hsb h hi hoff hnil hmax hm hr
      have hfile : setFile files i r.addrs (.of (max n (off / bsize + 1))) i =
          some (r.addrs, .of (max n (off / bsize + 1))) := Function.update_self ..
      have hrest := ih _ _ _ _ _ _ (by rw [List.length_drop]; omega) hchunk.layout hfile hnext
        hmax' hrun
      rw [List.length_drop] at hrest
      exact costs_chunk hsb h hi hoff (by omega) hr _ (by omega) (by omega) hrest

end Fs

namespace Volume

open Fs

variable {sb : Superblock} {v w : Volume} {i n off len : Nat} {src : Bytes} {e : Event}
  {addrs : Addrs} {s : Fs} {fl : FileMap}

/-- The blocks of the bitmap. -/
def bitmapBlocks (sb : Superblock) : Nat := sb.size / bpb + 1

theorem card_bitmap (sb : Superblock) :
    (Finset.Ico sb.bmapstart sb.datastart).card = bitmapBlocks sb := by
  rw [Nat.card_Ico]
  exact Nat.add_sub_cancel_left _ _

/-- The blocks that a write may log, counted. -/
theorem card_touched (hlay : Layout sb s.disk (setFile fl i addrs (.of n)))
    (hsb : sb.LaidOut) {old : Nat} (hend : (off + len + (bsize - 1)) / bsize ≤ n) {l : List Nat}
    (hl : ∀ c ∈ l, Touched sb s.disk addrs old off len c) (c : Nat) :
    (insert c l.toFinset).card ≤ ((off + len + (bsize - 1)) / bsize - off / bsize) +
      min ((off + len + (bsize - 1)) / bsize - max old (off / bsize) + 1) (bitmapBlocks sb) +
        2 := by
  classical
  generalize hlast : (off + len + (bsize - 1)) / bsize = last at *
  have hfile : setFile fl i addrs (.of n) i = some (addrs, .of n) := Function.update_self ..
  have hrange : ∀ k, k * bsize < off + len → k < last := by
    intro k hk
    rw [← hlast]
    unfold bsize at hk ⊢
    omega
  let address := fun k => (slotAddr s.disk addrs (.data k)).toNat
  let data := (Finset.Ico (off / bsize) last).image address
  let marks := insert (sb.bblock (addrs 12).toNat)
    ((Finset.Ico (max old (off / bsize)) last).image fun k => sb.bblock (address k))
  have hdata : data.card ≤ last - off / bsize := by
    have hcard := Finset.card_image_le (s := Finset.Ico (off / bsize) last) (f := address)
    rwa [Nat.card_Ico] at hcard
  have hmarks : marks.card ≤ last - max old (off / bsize) + 1 := by
    refine (Finset.card_insert_le _ _).trans (Nat.succ_le_succ ?_)
    have hcard := Finset.card_image_le (s := Finset.Ico (max old (off / bsize)) last)
      (f := fun k => sb.bblock (address k))
    rwa [Nat.card_Ico] at hcard
  -- all marks are in the bitmap
  have hbitmap : marks.card ≤ bitmapBlocks sb := by
    rw [← card_bitmap]
    refine Finset.card_le_card fun b hb => ?_
    rw [Finset.mem_Ico]
    rcases Finset.mem_insert.mp hb with rfl | hb
    · by_cases hzero : addrs 12 = 0
      · rw [hzero]
        exact bblock_lt (Nat.lt_of_lt_of_le (Nat.lt_of_le_of_lt (Nat.zero_le _) sb.bmapstart_lt)
          hsb.size)
      · exact bblock_lt (hlay.exact.sound (hlay.owns_table hfile hzero)).2.1
    · obtain ⟨k, hk, rfl⟩ := Finset.mem_image.mp hb
      have hk' : k < n := Nat.lt_of_lt_of_le (Finset.mem_Ico.mp hk).2 hend
      exact bblock_lt (hlay.marked (t := .data k) hfile hk').2.1
  have hsubset : insert c l.toFinset ⊆ insert c (insert (addrs 12).toNat (data ∪ marks)) := by
    refine Finset.insert_subset_insert _ fun b hb => ?_
    rw [Finset.mem_insert, Finset.mem_union]
    rcases hl b (List.mem_toFinset.mp hb) with ⟨k, hlo, hhi, hb | ⟨hnew, hb⟩⟩ | hb | hb
    · refine .inr (.inl (Finset.mem_image.mpr ⟨k, Finset.mem_Ico.mpr ⟨hlo, hrange k hhi⟩, hb.symm⟩))
    · refine .inr (.inr (Finset.mem_insert_of_mem (Finset.mem_image.mpr ⟨k, ?_, hb.symm⟩)))
      exact Finset.mem_Ico.mpr ⟨Nat.max_le.mpr ⟨hnew, hlo⟩, hrange k hhi⟩
    · exact .inl hb
    · exact .inr (.inr (Finset.mem_insert.mpr (.inl hb)))
  have hcard := Finset.card_le_card hsubset
  have hfirst := Finset.card_insert_le c (insert (addrs 12).toNat (data ∪ marks))
  have hsecond := Finset.card_insert_le (addrs 12).toNat (data ∪ marks)
  have hunion := Finset.card_union_le data marks
  omega

/-- The chunks of `filewrite`. -/
def Event.Chunked : Event → Prop
  | .write _ _ src => src.length ≤ Machine.maxChunk
  | _ => True

/-- How many blocks an operation may log. -/
def Event.budget (sb : Superblock) : Event → Nat
  | .write _ _ _ => 6 + min 4 (bitmapBlocks sb)
  | .create _ _ | .update _ _ _ _ => 1
  | .free _ => bitmapBlocks sb + 1

/-- The blocks logged from one state to another are at most so many. -/
def LogsAtMost (s s' : Fs) (n : Nat) : Prop :=
  ∃ l, s'.logged = s.logged ++ l ∧ l.toFinset.card ≤ n

theorem logsAtMost_of_mem {s s' : Fs} {l : List Nat} {t : Finset Nat}
    (hlogged : s'.logged = s.logged ++ l) (hl : ∀ c ∈ l, c ∈ t) (hcard : t.card ≤ n) :
    LogsAtMost s s' n := by
  refine ⟨l, hlogged, (Finset.card_le_card fun c hc => ?_).trans hcard⟩
  exact hl c (List.mem_toFinset.mp hc)

theorem logsAtMost_refl (s : Fs) (n : Nat) : LogsAtMost s s n :=
  ⟨[], (List.append_nil _).symm, Nat.zero_le n⟩

theorem logsAtMost_iupdate (s : Fs) (i : Nat) (ip : Dinode) : LogsAtMost s (iupdate sb s i ip) 1 :=
  ⟨[sb.iblock i], rfl, Nat.le_refl 1⟩

/-- A chunk of `filewrite`. -/
theorem logsAtMost_write (hsb : sb.LaidOut) (h : v.Good sb) (hlive : v.Live sb i)
    (hchunk : src.length ≤ Machine.maxChunk) {r : Fs × Dinode × Int}
    (hw : writei sb v.fs i (v.inode i) off src = some r) :
    LogsAtMost v.fs r.1 (6 + min 4 (bitmapBlocks sb)) := by
  unfold writei at hw
  by_cases hbad : (v.inode i).size.toNat < off ∨ (off + src.length) % 2 ^ 32 < off
  · rw [if_pos hbad] at hw
    cases hw
    exact logsAtMost_refl _ _
  rw [if_neg hbad] at hw
  by_cases hbig : maxFile * bsize < off + src.length
  · rw [if_pos hbig] at hw
    cases hw
    exact logsAtMost_refl _ _
  rw [if_neg hbig, Option.map_eq_some_iff] at hw
  obtain ⟨⟨s, addrs⟩, hloop, rfl⟩ := hw
  rw [not_or, Nat.not_lt] at hbad
  have hfile := files_of_live hlive
  have hn : off / bsize ≤ blocksOf (v.inode i).size.toNat := by
    have := hbad.1
    unfold blocksOf bsize
    omega
  obtain ⟨n', hwritten⟩ := written_writeLoop hsb _ _ _ _ _ _ _ (Nat.le_refl _) h.layout hfile hn
    (by omega) hloop
  obtain ⟨-, l, hlogged, hl⟩ := costs_writeLoop hsb _ _ _ _ _ _ _ (Nat.le_refl _) h.layout hfile hn
    (by omega) hloop
  by_cases hnil : src = []
  · subst hnil
    cases hloop
    rw [if_neg fun hgrow => Nat.lt_irrefl 0 hgrow.1]
    exact logsAtMost_refl _ _
  have hend : (off + src.length + (bsize - 1)) / bsize ≤ n' := by
    rw [hwritten.blocks, if_neg hnil]
    exact Nat.le_max_right _ _
  have hcard := card_touched hwritten.layout hsb hend hl (sb.iblock i)
  -- at most four blocks of data, three of them new
  have hbound : ((off + src.length + (bsize - 1)) / bsize - off / bsize) +
      min ((off + src.length + (bsize - 1)) / bsize -
        max (blocksOf (v.inode i).size.toNat) (off / bsize) + 1) (bitmapBlocks sb) + 2 ≤
      6 + min 4 (bitmapBlocks sb) := by
    have hsize := hbad.1
    unfold Machine.maxChunk at hchunk
    unfold blocksOf bsize
    omega
  have hmem : ∀ c ∈ l, c ∈ insert (sb.iblock i) l.toFinset :=
    fun c hc => Finset.mem_insert_of_mem (List.mem_toFinset.mpr hc)
  by_cases hgrow : 0 < src.length ∧ (v.inode i).size.toNat < off + src.length
  · rw [if_pos hgrow]
    refine logsAtMost_of_mem (l := l ++ [sb.iblock i]) ?_ (fun c hc => ?_) (hcard.trans hbound)
    · show s.logged ++ [sb.iblock i] = _
      rw [hlogged, List.append_assoc]
    · rcases List.mem_append.mp hc with hc | hc
      · exact hmem c hc
      · rw [List.mem_singleton.mp hc]
        exact Finset.mem_insert_self _ _
  · rw [if_neg hgrow]
    exact logsAtMost_of_mem hlogged hmem (hcard.trans hbound)

/-- `itrunc` and the two calls of `iupdate`. -/
theorem logsAtMost_free (h : v.Good sb) (hlive : v.Live sb i) {r : Fs × Dinode}
    (ht : itrunc sb v.fs i (v.inode i) = some r) (ip : Dinode) :
    LogsAtMost v.fs (iupdate sb r.1 i ip) (bitmapBlocks sb + 1) := by
  obtain ⟨s₁, hs₁, -, -, l, hlogged, hl⟩ := itrunc_some h.layout (files_of_live hlive) i
  rw [hs₁] at ht
  cases ht
  refine logsAtMost_of_mem (l := l ++ [sb.iblock i, sb.iblock i])
    (t := insert (sb.iblock i) (Finset.Ico sb.bmapstart sb.datastart)) ?_ (fun c hc => ?_) ?_
  · show s₁.logged ++ [sb.iblock i] ++ [sb.iblock i] = _
    rw [hlogged, List.append_assoc, List.append_assoc]
    rfl
  · rcases List.mem_append.mp hc with hc | hc
    · exact Finset.mem_insert_of_mem (Finset.mem_Ico.mpr (hl c hc))
    · have hc' : c = sb.iblock i := by simpa using hc
      rw [hc']
      exact Finset.mem_insert_self _ _
  · exact (Finset.card_insert_le _ _).trans (Nat.succ_le_succ (card_bitmap sb).le)

theorem logsAtMost_next (hsb : sb.LaidOut) (h : v.Good sb) (hchunked : e.Chunked)
    (hnext : v.next sb e = some w) : LogsAtMost v.fs w.fs (e.budget sb) := by
  cases e with
  | write i off src =>
    simp only [next, Option.ite_none_right_eq_some, Option.map_eq_some_iff] at hnext
    obtain ⟨⟨hlive, -⟩, r, hr, rfl⟩ := hnext
    exact logsAtMost_write hsb h hlive hchunked hr
  | create i type =>
    simp only [next, Option.bind_eq_some_iff, Option.ite_none_right_eq_some, Option.some.injEq]
      at hnext
    obtain ⟨⟨s, k⟩, hr, -, rfl⟩ := hnext
    obtain ⟨-, -, -, rfl⟩ := ialloc_some hr
    exact logsAtMost_iupdate _ _ _
  | update i major minor nlink =>
    simp only [next, Option.ite_none_right_eq_some, Option.some.injEq] at hnext
    obtain ⟨-, rfl⟩ := hnext
    exact logsAtMost_iupdate _ _ _
  | free i =>
    simp only [next, Option.ite_none_right_eq_some, Option.map_eq_some_iff] at hnext
    obtain ⟨hlive, r, hr, rfl⟩ := hnext
    exact logsAtMost_free h hlive hr _

/-- In every run in which the writes are the chunks of `filewrite`, each operation logs no more
blocks than its budget, which for a write is at most `MAXOPBLOCKS`. -/
theorem operations_fit_log (hsb : sb.LaidOut) (h : v.Good sb) {es : List Event}
    (run : Run (guarded (fun _ e => e.Chunked) (stepOf (next sb))) v es w) :
    Run (outcome (fun v e w => LogsAtMost v.fs w.fs (e.budget sb)) (stepOf (next sb))) v es w ∧
      ∀ i off src, (Event.write i off src).budget sb ≤ maxOpBlocks := by
  refine ⟨(run.imp (fun v => v.Good sb) h ?_).2, fun i off src => ?_⟩
  · rintro t e u hgood ⟨hchunked, hstep⟩
    exact ⟨(good_next hsb hgood hstep).1, logsAtMost_next hsb hgood hchunked hstep, hstep⟩
  · show 6 + min 4 (bitmapBlocks sb) ≤ maxOpBlocks
    unfold maxOpBlocks
    omega

instance (e : Event) : Decidable e.Chunked :=
  match e with
  | .write _ _ src => inferInstanceAs (Decidable (src.length ≤ Machine.maxChunk))
  | .create _ _ | .update _ _ _ _ | .free _ => .isTrue trivial

/-- A file that grows over the end of a block, and is freed. -/
theorem operations_fit_log_small : ∃ w,
    Run (outcome (fun v e w => LogsAtMost v.fs w.fs (e.budget small)) (stepOf (next small)))
      (blank small) [.create 1 2, .write 1 0 [5, 6, 7], .update 1 0 0 1, .free 1] w ∧
    ∀ i off src, (Event.write i off src).budget small ≤ maxOpBlocks := by
  obtain ⟨w, hw⟩ := Option.isSome_iff_exists.mp (show
    (runOf (fun v e => if Event.Chunked e then next small v e else none) (blank small)
      [.create 1 2, .write 1 0 [5, 6, 7], .update 1 0 0 1, .free 1]).isSome = true by
        decide +kernel)
  exact ⟨w, operations_fit_log laidOut_small (good_blank laidOut_small) (run_guarded_of_runOf hw)⟩

end Volume

end Cs537.P5
