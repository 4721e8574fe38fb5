import Cs537.Lib.Loop
import Cs537.P5.Vma

/-!
# Page tables and frames

The part of `vm.c` and `kalloc.c` that `fork` and the page fault handler use. A page directory
says which page tables exist and which frame each page is mapped to; permissions and the bytes
in the frames are left out (`Memory` has them, and `Frames` compares the two). The free list of
the kernel is a list of frame numbers. A function that returns an error, or that makes the kernel
panic, stops with that.
-/

namespace Cs537.P5

open Cs537.Lib

/-- How a function ends that does not return a result. -/
inductive Stop where
  | failed
  | panic
  deriving DecidableEq

/-- `kalloc` (`kalloc.c:82-96`). -/
def kalloc : List Nat → Except Stop (Nat × List Nat)
  | [] => .error .failed
  | f :: free => .ok (f, free)

/-- `PDX` (`mmu.h:74`). -/
def pdx (va : Int) : Int := va / 2 ^ 22

/-- The number of the page that an address lies in. -/
def pageOf (va : Int) : Int := va / pgsize

/-- A page directory: the page tables that are present, by directory index, and the frames that
their entries name, by page number. -/
structure Pgdir where
  table : Int → Bool
  pte : Int → Option Nat

namespace Pgdir

/-- `get_physical_page` (`sys_mmap.c:26-33`), `none` for 0. -/
def frameAt (d : Pgdir) (va : Int) : Option Nat :=
  if d.table (pdx va) then d.pte (pageOf va) else none

/-- `walkpgdir` with `alloc` set (`vm.c:35-55`): a page table that is missing is allocated and
zeroed. -/
def walkpgdir (d : Pgdir) (free : List Nat) (va : Int) : Except Stop (Pgdir × List Nat) :=
  if d.table (pdx va) then .ok (d, free)
  else
    match kalloc free with
    | .error e => .error e
    | .ok (_, free) =>
      .ok ({ table := Function.update d.table (pdx va) true
             pte := fun p => if p / 1024 = pdx va then none else d.pte p }, free)

/-- The loop of `mappages` (`vm.c:68-80`), `n` pages left, from address `a` and frame `f` on. -/
def mapLoop : Nat → Pgdir → List Nat → Int → Nat → Except Stop (Pgdir × List Nat)
  | 0, d, free, _, _ => .ok (d, free)
  | n + 1, d, free, a, f =>
    match d.walkpgdir free a with
    | .error e => .error e
    | .ok (d, free) =>
      if (d.pte (pageOf a)).isSome then .error .panic
      else
        mapLoop n { d with pte := Function.update d.pte (pageOf a) (some f) } free
          (u32 (a + pgsize)) (f + 1)

/-- `mappages` (`vm.c:60-82`). The loop runs until it meets the last page, so a size of 0 leads it
through the whole address space. -/
def mappages (d : Pgdir) (free : List Nat) (va size : Int) (f : Nat) :
    Except Stop (Pgdir × List Nat) :=
  let first := pageOf (u32 va)
  let last := pageOf (u32 (va + size - 1))
  mapLoop (((last - first) % 2 ^ 20).toNat + 1) d free (first * pgsize) f

/-- The frames that `setupkvm` takes (`vm.c:107-138`): the directory, 56 page tables for the 224 MB
of memory above `KERNBASE` and 8 for the devices above `DEVSPACE`. -/
def kvmFrames : Nat := 1 + 56 + 8

/-- `setupkvm` (`vm.c:119-138`), of which only the part below `KERNBASE` is kept, which is
empty. -/
def setupkvm (free : List Nat) : Except Stop (Pgdir × List Nat) :=
  if free.length < kvmFrames then .error .failed
  else .ok (⟨fun _ => false, fun _ => none⟩, free.drop kvmFrames)

/-- One round of `copyuvm` (`vm.c:327-341`), for page `k`. -/
def copyuvmPage (src : Pgdir) (s : Pgdir × List Nat) (k : Nat) : Except Stop (Pgdir × List Nat) :=
  match src.frameAt (pgsize * k) with
  | none => .error .panic
  | some _ =>
    match kalloc s.2 with
    | .error e => .error e
    | .ok (f, free) => s.1.mappages free (pgsize * k) pgsize f

/-- The number of pages of a process of `sz` bytes. -/
def userPages (sz : Int) : Nat := ((sz + 4095) / 4096).toNat

/-- `copyuvm` (`vm.c:315-347`). -/
def copyuvm (src : Pgdir) (sz : Int) (free : List Nat) : Except Stop (Pgdir × List Nat) :=
  match setupkvm free with
  | .error e => .error e
  | .ok s => (List.range (userPages sz)).foldlM (copyuvmPage src) s

/-! ## Mapping one page -/

variable {d d' : Pgdir} {free free' : List Nat} {va size : Int} {f : Nat}

theorem pageOf_div (va : Int) : pageOf va / 1024 = pdx va := by
  unfold pageOf pdx pgsize
  omega

theorem pdx_of_pageOf {a b : Int} (h : pageOf b = pageOf a) : pdx b = pdx a := by
  rw [← pageOf_div, ← pageOf_div, h]

/-- `walkpgdir` changes no mapping. -/
theorem frameAt_walkpgdir (h : d.walkpgdir free va = .ok (d', free')) :
    d'.table (pdx va) = true ∧ (∀ b, d'.frameAt b = d.frameAt b) ∧ free' <:+ free := by
  unfold walkpgdir at h
  by_cases ht : d.table (pdx va) = true
  · rw [if_pos ht] at h
    cases h
    exact ⟨ht, fun _ => rfl, List.suffix_refl _⟩
  · rw [if_neg ht] at h
    cases free with
    | nil => cases h
    | cons g free =>
      cases h
      refine ⟨Function.update_self _ _ _, ?_, List.suffix_cons _ _⟩
      intro b
      unfold frameAt
      simp only [pageOf_div]
      by_cases hb : pdx b = pdx va
      · rw [hb, Function.update_self, if_pos rfl, if_pos rfl, if_neg ht]
      · rw [Function.update_of_ne hb, if_neg hb]

/-- A range from an aligned address on that is not longer than a page: its last page is its first
one. -/
theorem last_eq_first (haligned : pgsize ∣ va) (h0 : 0 ≤ va) (hhi : va + pgsize ≤ 2 ^ 32)
    (hpos : 0 < size) (hle : size ≤ pgsize) :
    pageOf (u32 (va + size - 1)) = pageOf (u32 va) ∧ pageOf (u32 va) * pgsize = va := by
  unfold pgsize at *
  rw [u32_of_mem h0 (by omega), u32_of_mem (x := va + size - 1) (by omega) (by omega)]
  unfold pageOf pgsize
  omega

/-- One page from an aligned address on. -/
theorem mappages_eq (haligned : pgsize ∣ va) (h0 : 0 ≤ va) (hhi : va + pgsize ≤ 2 ^ 32)
    (hpos : 0 < size) (hle : size ≤ pgsize) : d.mappages free va size f = mapLoop 1 d free va f := by
  obtain ⟨hlast, hfirst⟩ := last_eq_first haligned h0 hhi hpos hle
  unfold mappages
  simp only [hlast, hfirst]
  rw [Int.sub_self]
  rfl

/-- A page that was mapped. -/
theorem frameAt_mapLoop (h : mapLoop 1 d free va f = .ok (d', free')) :
    d.frameAt va = none ∧
      (∀ b, d'.frameAt b = if pageOf b = pageOf va then some f else d.frameAt b) ∧
      free' <:+ free := by
  rw [mapLoop] at h
  cases hwalk : d.walkpgdir free va with
  | error e =>
    rw [hwalk] at h
    cases h
  | ok s =>
    obtain ⟨d₁, free₁⟩ := s
    obtain ⟨htable, hsame, hsuffix⟩ := frameAt_walkpgdir hwalk
    rw [hwalk] at h
    simp only [mapLoop] at h
    by_cases hpte : (d₁.pte (pageOf va)).isSome = true
    · rw [if_pos hpte] at h
      cases h
    · rw [if_neg hpte] at h
      cases h
      have hnone : d₁.frameAt va = none := by
        rw [frameAt, if_pos htable]
        simpa using hpte
      refine ⟨(hsame va).symm.trans hnone, ?_, hsuffix⟩
      intro b
      rw [← hsame b]
      simp only [frameAt]
      by_cases hb : pageOf b = pageOf va
      · rw [if_pos hb, pdx_of_pageOf hb, if_pos htable, hb, Function.update_self]
      · rw [if_neg hb, Function.update_of_ne hb]

/-- A page that is not mapped can be mapped if there is a frame for its page table. -/
theorem mapLoop_ok (hnone : d.frameAt va = none) (hfree : 0 < free.length) (f : Nat) :
    ∃ d' free', mapLoop 1 d free va f = .ok (d', free') ∧ free.length ≤ free'.length + 1 := by
  obtain ⟨g, rest, rfl⟩ := List.exists_cons_of_length_pos hfree
  by_cases ht : d.table (pdx va) = true
  · have hpte : d.pte (pageOf va) = none := by
      rwa [frameAt, if_pos ht] at hnone
    simp only [mapLoop, walkpgdir, if_pos ht, hpte, Option.isSome_none, Bool.false_eq_true,
      if_false]
    exact ⟨_, _, rfl, Nat.le_succ _⟩
  · simp only [mapLoop, walkpgdir, if_neg ht, kalloc, pageOf_div, if_true, Option.isSome_none,
      Bool.false_eq_true, if_false]
    exact ⟨_, _, rfl, Nat.le_refl _⟩

/-! ## Copying the memory of a process -/

/-- The pages that a process of `sz` bytes below `MMAPBASE` has lie below `MMAPBASE` too. -/
theorem userPages_le {sz : Int} (h0 : 0 ≤ sz) (hsz : sz ≤ mmapBase) :
    pgsize * (userPages sz : Int) ≤ mmapBase := by
  unfold userPages pgsize
  unfold mmapBase at *
  omega

/-- The address of a page of the process. -/
theorem mappages_user {sz : Int} (h0 : 0 ≤ sz) (hsz : sz ≤ mmapBase) {k : Nat}
    (hk : k < userPages sz) :
    d.mappages free (pgsize * k) pgsize f = mapLoop 1 d free (pgsize * k) f := by
  have hle := userPages_le h0 hsz
  unfold mmapBase at hle
  unfold pgsize at hle ⊢
  exact mappages_eq (Int.dvd_mul_right _ _) (by omega) (by unfold pgsize; omega) (by omega)
    (by unfold pgsize; omega)

theorem pageOf_mul (k : Nat) : pageOf (pgsize * k) = k := by
  unfold pageOf pgsize
  omega

/-- What one round of `copyuvm` did. -/
theorem frameAt_copyuvmPage {src : Pgdir} {s s' : Pgdir × List Nat} {sz : Int} (h0 : 0 ≤ sz)
    (hsz : sz ≤ mmapBase) {k : Nat} (hk : k < userPages sz) (h : copyuvmPage src s k = .ok s') :
    (∀ b, pageOf b ≠ k → s'.1.frameAt b = s.1.frameAt b) ∧ s'.2 <:+ s.2 := by
  unfold copyuvmPage at h
  cases hsrc : src.frameAt (pgsize * k) with
  | none =>
    rw [hsrc] at h
    cases h
  | some g =>
    rw [hsrc] at h
    obtain ⟨d, free⟩ := s
    cases free with
    | nil => cases h
    | cons f free =>
      simp only [kalloc, mappages_user h0 hsz hk] at h
      obtain ⟨-, hframes, hsuffix⟩ := frameAt_mapLoop h
      refine ⟨?_, hsuffix.trans (List.suffix_cons f free)⟩
      intro b hb
      rw [hframes, pageOf_mul, if_neg hb]

/-- The new directory maps nothing above the pages of the process. -/
theorem frameAt_copyuvm {src : Pgdir} {sz : Int} (h0 : 0 ≤ sz) (hsz : sz ≤ mmapBase)
    (h : src.copyuvm sz free = .ok (d, free')) :
    (∀ b, (userPages sz : Int) ≤ pageOf b → d.frameAt b = none) ∧ free' <:+ free := by
  unfold copyuvm setupkvm at h
  by_cases hfew : free.length < kvmFrames
  · rw [if_pos hfew] at h
    cases h
  · rw [if_neg hfew] at h
    refine foldlM_invariant (fun s : Pgdir × List Nat =>
      (∀ b, (userPages sz : Int) ≤ pageOf b → s.1.frameAt b = none) ∧ s.2 <:+ free) h
      ⟨fun _ _ => rfl, List.drop_suffix _ _⟩ ?_
    rintro k hk s s' ⟨hnone, hsuffix⟩ hround
    have hlt := List.mem_range.mp hk
    obtain ⟨hframes, hsuffix'⟩ := frameAt_copyuvmPage h0 hsz hlt hround
    refine ⟨?_, hsuffix'.trans hsuffix⟩
    intro b hb
    rw [hframes b (by omega), hnone b hb]

/-- With two frames for each page of the process, besides those of the kernel part, it is
copied. -/
theorem copyuvm_ok {src : Pgdir} {sz : Int} (h0 : 0 ≤ sz) (hsz : sz ≤ mmapBase)
    (hpresent : ∀ k < userPages sz, src.frameAt (pgsize * k) ≠ none)
    (hfree : kvmFrames + 2 * userPages sz ≤ free.length) :
    ∃ d free', src.copyuvm sz free = .ok (d, free') ∧
      free.length ≤ free'.length + (kvmFrames + 2 * userPages sz) := by
  unfold copyuvm setupkvm
  rw [if_neg (by omega)]
  obtain ⟨⟨d, free'⟩, hok, -, -, -, hlength⟩ := foldlM_ok (f := copyuvmPage src)
    (l := List.range (userPages sz)) (s := (⟨fun _ => false, fun _ => none⟩, free.drop kvmFrames))
    (fun ks s => ks.Nodup ∧ (∀ k ∈ ks, k < userPages sz) ∧
      (∀ k ∈ ks, s.1.frameAt (pgsize * k) = none) ∧
      free.length + 2 * ks.length ≤ s.2.length + (kvmFrames + 2 * userPages sz))
    (by
      refine ⟨List.nodup_range, fun k hk => List.mem_range.mp hk, fun _ _ => rfl, ?_⟩
      rw [List.length_drop, List.length_range]
      omega)
    (by
      rintro k ks ⟨c, rest⟩ ⟨hnodup, hlt, hnone, hlength⟩
      rw [List.nodup_cons] at hnodup
      have hk := hlt k List.mem_cons_self
      obtain ⟨g, hg⟩ := Option.ne_none_iff_exists'.mp (hpresent k hk)
      rw [List.length_cons] at hlength
      simp only at hlength
      obtain ⟨f, rest, rfl⟩ : ∃ f rest', rest = f :: rest' :=
        List.exists_cons_of_length_pos (by omega)
      rw [List.length_cons] at hlength
      obtain ⟨c', rest', hmap, hlen⟩ := mapLoop_ok (hnone k List.mem_cons_self)
        (show 0 < rest.length by omega) f
      obtain ⟨-, hframes, -⟩ := frameAt_mapLoop hmap
      refine ⟨(c', rest'), ?_, hnodup.2, fun j hj => hlt j (List.mem_cons_of_mem k hj), ?_, ?_⟩
      · simp only [copyuvmPage, hg, kalloc, mappages_user h0 hsz hk, hmap]
      · intro j hj
        rw [hframes, pageOf_mul, pageOf_mul, if_neg]
        · exact hnone j (List.mem_cons_of_mem k hj)
        · rintro heq
          exact hnodup.1 ((Int.ofNat_inj.mp heq) ▸ hj)
      · simp only
        omega)
  exact ⟨d, free', hok, by simpa using hlength⟩

end Pgdir

end Cs537.P5
