import Mathlib.Algebra.BigOperators.Group.Finset.Sigma
import Mathlib.Algebra.Order.BigOperators.Group.Finset
import Mathlib.Order.Interval.Finset.Nat
import Cs537.P5.Volume

/-!
# Space on a volume

When `balloc` finds no block it panics. No block is ever lost, so this happens just when the files
would need more blocks than there are behind the metadata.
-/

namespace Cs537.P5

open Cs537.Lib

namespace Fs

variable {sb : Superblock} {s s' : Fs} {disk disk' : Nat → Block} {files : FileMap}
  {i n k off b : Nat}
  {addrs addrs' : Addrs} {src : Bytes} {r : Mapped}

/-- The blocks of a file with so many blocks of data. -/
def total (n : Nat) : Nat := n + if 12 < n then 1 else 0

theorem total_mono {m : Nat} (h : n ≤ m) : total n ≤ total m := by
  unfold total
  split
  · rw [if_pos (by omega)]
    omega
  · omega

/-- The blocks that are not marked. -/
def freeBlocks (sb : Superblock) (disk : Nat → Block) : Nat :=
  ((Finset.range sb.size).filter fun b => used sb disk b = false).card

theorem freeBlocks_congr (h : ∀ b < sb.size, used sb disk' b = used sb disk b) :
    freeBlocks sb disk' = freeBlocks sb disk := by
  unfold freeBlocks
  refine congrArg Finset.card (Finset.filter_congr fun b hb => ?_)
  rw [h b (Finset.mem_range.mp hb)]

theorem freeBlocks_allocated (hal : Allocated sb s s' b) :
    freeBlocks sb s'.disk + 1 = freeBlocks sb s.disk := by
  have hmem : b ∈ (Finset.range sb.size).filter fun b => used sb s.disk b = false :=
    Finset.mem_filter.mpr ⟨Finset.mem_range.mpr hal.lt, hal.free⟩
  have herase : ((Finset.range sb.size).filter fun b => used sb s'.disk b = false) =
      ((Finset.range sb.size).filter fun b => used sb s.disk b = false).erase b := by
    ext c
    rw [Finset.mem_erase, Finset.mem_filter, Finset.mem_filter, Finset.mem_range]
    by_cases hc : c < sb.size
    · rw [hal.used c hc]
      by_cases hcb : c = b
      · rw [if_pos hcb]
        exact iff_of_false (fun h => Bool.noConfusion h.2) fun h => h.1 hcb
      · rw [if_neg hcb]
        exact (and_iff_right hcb).symm
    · exact iff_of_false (fun h => hc h.1) fun h => hc h.2.1
  unfold freeBlocks
  rw [herase]
  exact Finset.card_erase_add_one hmem

/-- `balloc` panics just if no block is free. -/
theorem balloc_isSome_iff : (balloc sb s).isSome ↔ 0 < freeBlocks sb s.disk := by
  rw [balloc_isSome]
  unfold freeBlocks
  rw [Finset.card_pos]
  constructor
  · rintro ⟨b, hb, hfree⟩
    exact ⟨b, Finset.mem_filter.mpr ⟨Finset.mem_range.mpr hb, hfree⟩⟩
  · rintro ⟨b, hb⟩
    obtain ⟨hb, hfree⟩ := Finset.mem_filter.mp hb
    exact ⟨b, Finset.mem_range.mp hb, hfree⟩

/-- A block for a file that needs `c` blocks: there are enough, and then so many fewer. -/
def Takes (sb : Superblock) (s : Fs) (r : Option Mapped) (c : Nat) : Prop :=
  (r.isSome ↔ c ≤ freeBlocks sb s.disk) ∧
    ∀ r', r = some r' → freeBlocks sb r'.fs.disk + c = freeBlocks sb s.disk

theorem takes_addrOf (h : Layout sb s.disk files) (addrs : Addrs) (j : Fin 13) :
    Takes sb s (addrOf sb s addrs j) (if addrs j = 0 then 1 else 0) := by
  by_cases hzero : addrs j = 0
  · rw [if_pos hzero]
    refine ⟨?_, fun r hr => ?_⟩
    · unfold addrOf
      rw [if_pos hzero, Option.isSome_map, balloc_isSome_iff]
      exact Iff.rfl
    · obtain ⟨s', b, hb, rfl⟩ := addrOf_of_zero hzero hr
      exact freeBlocks_allocated (allocated_balloc h.metadata hb)
  · rw [if_neg hzero, addrOf_of_ne_zero hzero]
    refine ⟨iff_of_true rfl (Nat.zero_le _), ?_⟩
    rintro r ⟨⟩
    rfl

theorem takes_entryOf {m : Mapped} (h : Layout sb m.fs.disk files)
    (hown : Marked sb m.fs.disk m.addr.toNat) (hzero : (m.fs.disk m.addr.toNat).word k = 0) :
    Takes sb m.fs (entryOf sb m k) 1 := by
  unfold entryOf
  rw [if_pos hzero]
  refine ⟨?_, fun r hr => ?_⟩
  · rw [Option.isSome_map, balloc_isSome_iff]
    exact Iff.rfl
  obtain ⟨⟨s', b⟩, hb, rfl⟩ := Option.map_eq_some_iff.mp hr
  rw [← freeBlocks_allocated (allocated_balloc h.metadata hb)]
  refine congrArg (· + 1) (freeBlocks_congr fun c hc => used_congr (disk_logWrite_of_ne _ _ ?_))
  have hlt := (bblock_lt hc).2
  have hge := hown.1
  omega

/-- `bmap` takes what the file needs more. -/
theorem takes_bmap (hsb : sb.LaidOut) (h : Layout sb s.disk files)
    (hi : files i = some (addrs, .of n)) (hk : k ≤ n) (hmax : k < maxFile) :
    Takes sb s (bmap sb s addrs k) (total (max n (k + 1)) - total n) := by
  rcases Nat.lt_or_eq_of_le hk with hlt | rfl
  · rw [bmap_held h hi hlt, Nat.max_eq_left hlt, Nat.sub_self]
    refine ⟨iff_of_true rfl (Nat.zero_le _), ?_⟩
    rintro r ⟨⟩
    rfl
  have hold := h.shaped i addrs _ hi
  have hzero : slotAddr s.disk addrs (.data k) = 0 :=
    hold.empty (.data k) hmax (Nat.lt_irrefl k)
  rw [Nat.max_eq_right (Nat.le_succ k)]
  unfold bmap
  by_cases h12 : k < 12
  · have hneed : total (k + 1) - total k = 1 := by
      unfold total
      rw [if_neg (by omega), if_neg (by omega)]
      omega
    rw [slotAddr_direct _ _ h12] at hzero
    have htakes := takes_addrOf h addrs ⟨k, Nat.lt_succ_of_lt h12⟩
    rw [if_pos hzero] at htakes
    rw [dif_pos h12, hneed]
    exact htakes
  · have hrange : k - 12 < 128 := by
      unfold maxFile at hmax
      omega
    rw [dif_neg h12, if_pos hrange]
    obtain ⟨hsome, hfree⟩ := takes_addrOf h addrs 12
    have htable : addrs 12 = 0 ↔ k = 12 := by
      constructor
      · intro hzero12
        by_contra hne
        exact h.ne_zero_of_held (t := .table) hi (Shape.of_table (by omega)) hzero12
      · rintro rfl
        exact hold.empty .table trivial fun hheld => Bool.false_ne_true hheld
    have hneed : total (k + 1) - total k = (if addrs 12 = 0 then 1 else 0) + 1 := by
      unfold total
      by_cases hk12 : k = 12
      · rw [if_pos (htable.mpr hk12), if_pos (by omega), if_neg (by omega)]
        omega
      · rw [if_neg (mt htable.mp hk12), if_pos (by omega), if_pos (by omega)]
        omega
    rw [hneed]
    cases hm : addrOf sb s addrs 12 with
    | none =>
      rw [hm] at hsome
      have hfew : ¬ (if addrs 12 = 0 then 1 else 0) ≤ freeBlocks sb s.disk :=
        fun hle => absurd (hsome.mpr hle) Bool.false_ne_true
      refine ⟨iff_of_false Bool.false_ne_true fun hle => hfew (by omega), ?_⟩
      rintro r ⟨⟩
    | some m =>
      obtain ⟨hgrown, haddr⟩ := grown_bmap_table hsb h hi h12 hm
      have hfile : setFile files i m.addrs ⟨k, true⟩ i = some (m.addrs, ⟨k, true⟩) :=
        Function.update_self ..
      have hne : m.addrs 12 ≠ 0 := hgrown.layout.ne_zero_of_held (t := .table) hfile rfl
      have hown := hgrown.layout.exact.sound (hgrown.layout.owns_table hfile hne)
      rw [haddr] at hown
      have hword : (m.fs.disk m.addr.toNat).word (k - 12) = 0 := by
        have hempty := (hgrown.layout.shaped i _ _ hfile).empty (.data k) hmax (Nat.lt_irrefl k)
        rwa [slotAddr_indirect _ _ h12, if_neg hne, haddr] at hempty
      obtain ⟨hsome', hfree'⟩ := takes_entryOf hgrown.layout hown hword
      have hm' := hfree m hm
      rw [Option.bind_some]
      refine ⟨hsome'.trans (by omega), fun r hr => ?_⟩
      have := hfree' r hr
      omega

/-- The loop of `writei` gets through just if there are enough blocks. -/
theorem writeLoop_isSome_iff (hsb : sb.LaidOut) : ∀ fuel (s : Fs) (files : FileMap) addrs n off src,
    src.length ≤ fuel → Layout sb s.disk files → files i = some (addrs, .of n) →
    off / bsize ≤ n → off + src.length ≤ maxFile * bsize →
    ((writeLoop sb fuel s addrs off src).isSome ↔
      total (if src = [] then n else max n ((off + src.length + (bsize - 1)) / bsize)) ≤
        freeBlocks sb s.disk + total n) := by
  intro fuel
  induction fuel with
  | zero =>
    intro s files addrs n off src hfuel _ _ _ _
    rw [List.length_eq_zero_iff.mp (Nat.le_zero.mp hfuel), if_pos rfl]
    exact iff_of_true rfl (Nat.le_add_left _ _)
  | succ fuel ih =>
    intro s files addrs n off src hfuel h hi hoff hmax
    unfold writeLoop
    by_cases hnil : src = []
    · rw [if_pos hnil, if_pos hnil]
      exact iff_of_true rfl (Nat.le_add_left _ _)
    · rw [if_neg hnil, if_neg hnil]
      have hpos := List.length_pos_iff.mpr hnil
      have hmod : off % bsize < bsize := Nat.mod_lt _ (by decide)
      have hk : off / bsize < maxFile := div_bsize_lt (by omega)
      obtain ⟨hsome, hfree⟩ := takes_bmap hsb h hi hoff hk
      have hmono := total_mono (Nat.le_max_left n (off / bsize + 1))
      have hlast : max n (off / bsize + 1) ≤ max n ((off + src.length + (bsize - 1)) / bsize) := by
        unfold bsize
        omega
      have hmono' := total_mono hlast
      cases hr : bmap sb s addrs (off / bsize) with
      | none =>
        rw [hr] at hsome
        have hfew := mt hsome.mpr Bool.false_ne_true
        refine iff_of_false Bool.false_ne_true fun hle => hfew ?_
        omega
      | some r =>
        rw [Option.bind_some]
        dsimp only
        generalize hm : min src.length (bsize - off % bsize) = m
        obtain ⟨⟨hpos, hle⟩, hchunk, hnext, hmax'⟩ := written_pass hsb h hi hoff hnil hmax hm hr
        have hfile : setFile files i r.addrs (.of (max n (off / bsize + 1))) i =
            some (r.addrs, .of (max n (off / bsize + 1))) := Function.update_self ..
        have hrest := ih _ _ _ _ _ (src.drop m) (by rw [List.length_drop]; omega) hchunk.layout
          hfile hnext hmax'
        have hsame : (if src.drop m = [] then max n (off / bsize + 1) else
            max (max n (off / bsize + 1))
              ((off + m + (src.drop m).length + (bsize - 1)) / bsize)) =
            max n ((off + src.length + (bsize - 1)) / bsize) := by
          rw [List.length_drop]
          by_cases hdrop : src.drop m = []
          · have hlen := List.drop_eq_nil_iff.mp hdrop
            rw [if_pos hdrop]
            unfold bsize at hm ⊢
            omega
          · rw [if_neg hdrop]
            unfold bsize at hm ⊢
            omega
        obtain ⟨hgrown, haddr⟩ := grown_bmap hsb h hi hoff hk hr
        have hmarked := hgrown.layout.marked (t := .data (off / bsize)) hfile
          (Nat.lt_of_lt_of_le (Nat.lt_succ_self _) (Nat.le_max_right _ _))
        rw [haddr] at hmarked
        have hwrite : freeBlocks sb (r.fs.logWrite r.addr.toNat
            ((r.fs.disk r.addr.toNat).write (off % bsize) (src.take m))).disk =
            freeBlocks sb r.fs.disk := by
          refine freeBlocks_congr fun c hc => used_congr (disk_logWrite_of_ne _ _ ?_)
          have hlt := (bblock_lt hc).2
          have hge := hmarked.1
          omega
        have hleft := hfree r hr
        rw [hsame, hwrite] at hrest
        refine hrest.trans ?_
        omega

end Fs

namespace Volume

open Fs

variable {sb : Superblock} {v w : Volume} {i off : Nat} {src data : Bytes}

/-- The places of a shape that hold an address. -/
def heldSlots (sh : Shape) : Finset Slot :=
  (Finset.range sh.blocks).image Slot.data ∪
    if sh.table then {.table} else ∅

theorem mem_heldSlots {sh : Shape} {t : Slot} : t ∈ heldSlots sh ↔ sh.Held t := by
  unfold heldSlots
  cases t with
  | data k =>
    cases htable : sh.table with
    | true | false => simp [Shape.Held]
  | table =>
    cases htable : sh.table with
    | true | false => simp [Shape.Held, htable]

theorem card_heldSlots (n : Nat) : (heldSlots (.of n)).card = total n := by
  unfold heldSlots Shape.of total
  dsimp only
  rw [Finset.card_union_of_disjoint, Finset.card_image_of_injective _ fun _ _ h => Slot.data.inj h,
    Finset.card_range]
  · by_cases h : 12 < n
    · rw [decide_eq_true h, if_pos rfl, if_pos h]
      rfl
    · rw [decide_eq_false h, if_neg Bool.false_ne_true, if_neg h]
      rfl
  · rw [Finset.disjoint_left]
    intro t ht
    obtain ⟨k, -, rfl⟩ := Finset.mem_image.mp ht
    split <;> simp

/-- The blocks that a file of such contents needs. -/
def occupied : Option Bytes → Nat
  | none => 0
  | some data => total (blocksOf data.length)

/-- The places of inode `i` in use. -/
def slotsOf (sb : Superblock) (v : Volume) (i : Nat) : Finset Slot :=
  if v.Live sb i then heldSlots (.of (blocksOf (v.inode i).size.toNat)) else ∅

theorem mem_slotsOf {t : Slot} {b : Nat} : Owns v.fs.disk (v.files sb) (i, t) b ↔
    t ∈ slotsOf sb v i ∧ (slotAddr v.fs.disk (v.inode i).addrs t).toNat = b := by
  unfold Owns slotsOf files
  by_cases h : v.Live sb i
  · rw [if_pos h, if_pos h, mem_heldSlots]
    constructor
    · rintro ⟨addrs, sh, ⟨⟩, hheld, haddr⟩
      exact ⟨hheld, haddr⟩
    · rintro ⟨hheld, haddr⟩
      exact ⟨_, _, rfl, hheld, haddr⟩
  · rw [if_neg h, if_neg h]
    constructor
    · rintro ⟨addrs, sh, ⟨⟩, -⟩
    · rintro ⟨hmem, -⟩
      exact absurd hmem (Finset.notMem_empty t)

theorem card_slotsOf (sb : Superblock) (v : Volume) (i : Nat) :
    (slotsOf sb v i).card = occupied (v.contents sb i) := by
  unfold slotsOf contents
  by_cases h : v.Live sb i
  · rw [if_pos h, if_pos h, card_heldSlots]
    exact congrArg (fun n => total (blocksOf n)) (length_fileBytes _ _ _).symm
  · rw [if_neg h, if_neg h]
    rfl

/-- The marked blocks behind the metadata are those of the files. -/
theorem card_marked (h : v.Good sb) :
    ((Finset.Ico sb.datastart sb.size).filter fun b => used sb v.fs.disk b = true).card =
      ∑ i ∈ Finset.range sb.ninodes, occupied (v.contents sb i) := by
  have hsum : ∑ i ∈ Finset.range sb.ninodes, occupied (v.contents sb i) =
      ((Finset.range sb.ninodes).sigma fun i => slotsOf sb v i).card := by
    rw [Finset.card_sigma]
    exact Finset.sum_congr rfl fun i _ => (card_slotsOf sb v i).symm
  rw [hsum]
  symm
  have hmarked : ∀ {p : Nat × Slot} {b}, Owns v.fs.disk (v.files sb) p b →
      b ∈ (Finset.Ico sb.datastart sb.size).filter fun b => used sb v.fs.disk b = true := by
    intro p b hown
    obtain ⟨hge, hlt, hused⟩ := h.layout.exact.sound hown
    exact Finset.mem_filter.mpr ⟨Finset.mem_Ico.mpr ⟨hge, hlt⟩, hused⟩
  have howns : ∀ p ∈ (Finset.range sb.ninodes).sigma fun i => slotsOf sb v i,
      Owns v.fs.disk (v.files sb) (p.1, p.2) (slotAddr v.fs.disk (v.inode p.1).addrs p.2).toNat :=
    fun p hp => mem_slotsOf.mpr ⟨(Finset.mem_sigma.mp hp).2, rfl⟩
  refine Finset.card_bij (fun p _ => (slotAddr v.fs.disk (v.inode p.1).addrs p.2).toNat)
    (fun p hp => hmarked (howns p hp)) (fun p hp q hq heq => ?_) fun b hb => ?_
  · have hq' := howns q hq
    rw [← heq] at hq'
    have hpq := h.layout.exact.place (howns p hp) hq'
    exact Sigma.ext (congrArg Prod.fst hpq) (heq_of_eq (congrArg Prod.snd hpq))
  · obtain ⟨hrange, hused⟩ := Finset.mem_filter.mp hb
    obtain ⟨hge, hlt⟩ := Finset.mem_Ico.mp hrange
    obtain ⟨⟨i, t⟩, hown⟩ := h.layout.exact.owner ⟨hge, hlt, hused⟩
    obtain ⟨hmem, haddr⟩ := mem_slotsOf.mp hown
    have hi : i < sb.ninodes := by
      obtain ⟨addrs, sh, hfile, -⟩ := hown
      by_contra hge
      rw [show v.files sb i = none from if_neg fun hlive => hge hlive.2.1] at hfile
      cases hfile
    exact ⟨⟨i, t⟩, Finset.mem_sigma.mpr ⟨Finset.mem_range.mpr hi, hmem⟩, haddr⟩

/-- Every block behind the metadata is free or in one file. -/
theorem accounting (h : v.Good sb) :
    freeBlocks sb v.fs.disk + ∑ i ∈ Finset.range sb.ninodes, occupied (v.contents sb i) =
      sb.size - sb.datastart := by
  have hfree : freeBlocks sb v.fs.disk =
      ((Finset.Ico sb.datastart sb.size).filter fun b => ¬ used sb v.fs.disk b = true).card := by
    unfold freeBlocks
    refine congrArg Finset.card ?_
    ext b
    rw [Finset.mem_filter, Finset.mem_filter, Finset.mem_range, Finset.mem_Ico, Bool.not_eq_true]
    constructor
    · rintro ⟨hlt, hused⟩
      refine ⟨⟨Nat.le_of_not_lt fun hmeta => ?_, hlt⟩, hused⟩
      rw [h.layout.metadata b hmeta] at hused
      cases hused
    · rintro ⟨⟨-, hlt⟩, hused⟩
      exact ⟨hlt, hused⟩
  rw [hfree, ← card_marked h, Nat.add_comm, Finset.card_filter_add_card_filter_not, Nat.card_Ico]

theorem sum_update {c : FlatFiles} {n : Nat} (hi : i < n) (x : Option Bytes) :
    (∑ j ∈ Finset.range n, occupied (Function.update c i x j)) + occupied (c i) =
      (∑ j ∈ Finset.range n, occupied (c j)) + occupied x := by
  have hmem := Finset.mem_range.mpr hi
  rw [← Finset.add_sum_erase _ _ hmem,
    ← Finset.add_sum_erase (Finset.range n) (fun j => occupied (c j)) hmem, Function.update_self]
  have hrest : ∑ j ∈ (Finset.range n).erase i, occupied (Function.update c i x j) =
      ∑ j ∈ (Finset.range n).erase i, occupied (c j) :=
    Finset.sum_congr rfl fun j hj => by rw [Function.update_of_ne (Finset.ne_of_mem_erase hj)]
  rw [hrest]
  omega

/-- A write within the limits of a file panics just if the files would then need more blocks than
there are behind the metadata. -/
theorem write_isSome_iff (hsb : sb.LaidOut) (h : v.Good sb) {es : List Event}
    (run : Run (stepOf (next sb)) v es w) (hdata : w.contents sb i = some data)
    (hoff : off ≤ data.length) (hend : off + src.length ≤ maxFile * bsize) :
    (writei sb w.fs i (w.inode i) off src).isSome ↔
      ∑ j ∈ Finset.range sb.ninodes,
        occupied (Function.update (w.contents sb) i (some (splice data off src)) j) ≤
          sb.size - sb.datastart := by
  have hgood := good_run hsb h run
  have hlive : w.Live sb i := by
    refine Classical.byContradiction fun hdead => ?_
    rw [show w.contents sb i = none from if_neg hdead] at hdata
    cases hdata
  have hsum := sum_update (c := w.contents sb) hlive.2.1 (some (splice data off src))
  have haccount := accounting hgood
  rw [contents_of_live hlive] at hdata
  cases hdata
  rw [length_fileBytes] at hoff
  rw [contents_of_live hlive] at hsum
  unfold occupied at hsum
  dsimp only at hsum
  rw [length_splice src (by rwa [length_fileBytes]), length_fileBytes] at hsum
  have hmax : maxFile * bsize < 2 ^ 32 := by decide
  have hgood' : ¬ ((w.inode i).size.toNat < off ∨ (off + src.length) % 2 ^ 32 < off) := by
    rw [Nat.mod_eq_of_lt (by omega)]
    omega
  have hn : off / bsize ≤ blocksOf (w.inode i).size.toNat := by
    unfold blocksOf bsize
    omega
  have hloop := writeLoop_isSome_iff hsb _ _ _ _ _ _ _ (Nat.le_refl _) hgood.layout
    (files_of_live hlive) hn hend
  have hlast : (if src = [] then blocksOf (w.inode i).size.toNat else
      max (blocksOf (w.inode i).size.toNat) ((off + src.length + (bsize - 1)) / bsize)) =
      blocksOf (max (w.inode i).size.toNat (off + src.length)) := by
    by_cases hnil : src = []
    · rw [if_pos hnil, hnil, List.length_nil, Nat.add_zero, Nat.max_eq_left hoff]
    · rw [if_neg hnil]
      unfold blocksOf bsize
      omega
  rw [hlast] at hloop
  unfold writei
  rw [if_neg hgood', if_neg (by omega), Option.isSome_map, hloop]
  unfold occupied at haccount ⊢
  omega

/-- A byte more for a file of three. -/
theorem write_isSome_iff_small : ∃ w data,
    Run (stepOf (next small)) (blank small) [.create 1 2, .write 1 0 [5, 6, 7]] w ∧
    w.contents small 1 = some data ∧
    ((writei small w.fs 1 (w.inode 1) 3 [8]).isSome ↔
      ∑ j ∈ Finset.range small.ninodes,
        occupied (Function.update (w.contents small) 1 (some (splice data 3 [8])) j) ≤
          small.size - small.datastart) := by
  have hrun : (runOf (next small) (blank small) [.create 1 2, .write 1 0 [5, 6, 7]]).any
      (fun w => w.contents small 1 = some [5, 6, 7]) = true := by decide +kernel
  obtain ⟨w, hw, hdata⟩ := (Option.any_eq_true _ _).mp hrun
  exact ⟨w, [5, 6, 7], run_of_runOf hw, of_decide_eq_true hdata, write_isSome_iff laidOut_small
    (good_blank laidOut_small) (run_of_runOf hw) (of_decide_eq_true hdata) (by decide) (by decide)⟩

end Volume

end Cs537.P5
