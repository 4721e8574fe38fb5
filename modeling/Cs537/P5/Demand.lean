import Cs537.P5.Copying
import Mathlib.Data.Finset.Card

/-!
# How many frames `copy_maps` takes

For each page of a private mapping that the parent has, `copy_maps` takes a frame for the copy, and
one for each page table that the child has not got yet. For each page of a shared mapping that the
parent has not got, it takes a frame and, if need be, a page table for the parent; if that mapping
is anonymous, it fails all the same. So where the mappings have no page in common, whether it fails
can be told from the mappings, the page table of the parent and the number of free frames.
-/

namespace Cs537.P5

open Cs537.Lib

/-! ## Frames for pages -/

/-- The frames that it takes to map some pages, with the page tables that are missing for them. -/
def framesFor (missing : Int → Prop) [DecidablePred missing] (ps : List Int) : Nat :=
  ps.length + ((ps.map (· / 1024)).toFinset.filter missing).card

section

variable {missing : Int → Prop} [DecidablePred missing] {ps : List Int} {p : Int}

theorem framesFor_there (h : ¬ (missing (p / 1024) ∧ ∀ q ∈ ps, q / 1024 ≠ p / 1024)) :
    framesFor missing (ps ++ [p]) = framesFor missing ps + 1 := by
  have hsame : ((ps ++ [p]).map (· / 1024)).toFinset.filter missing =
      (ps.map (· / 1024)).toFinset.filter missing := by
    rw [List.map_append, List.toFinset_append, Finset.filter_union, List.map_singleton,
      List.toFinset_cons, List.toFinset_nil, LawfulSingleton.insert_empty_eq]
    apply Finset.union_eq_left.mpr
    intro i hi
    rw [Finset.mem_filter, Finset.mem_singleton] at hi
    obtain ⟨rfl, hmissing⟩ := hi
    simp only [hmissing, true_and, not_forall, not_not] at h
    obtain ⟨q, hq, heq⟩ := h
    rw [Finset.mem_filter, List.mem_toFinset, ← heq]
    exact ⟨List.mem_map.mpr ⟨q, hq, rfl⟩, heq ▸ hmissing⟩
  unfold framesFor
  rw [hsame, List.length_append, List.length_singleton]
  omega

theorem framesFor_missing (hmissing : missing (p / 1024)) (hnew : ∀ q ∈ ps, q / 1024 ≠ p / 1024) :
    framesFor missing (ps ++ [p]) = framesFor missing ps + 2 := by
  have hmore : ((ps ++ [p]).map (· / 1024)).toFinset.filter missing =
      insert (p / 1024) ((ps.map (· / 1024)).toFinset.filter missing) := by
    rw [List.map_append, List.toFinset_append, Finset.filter_union, List.map_singleton,
      List.toFinset_cons, List.toFinset_nil, LawfulSingleton.insert_empty_eq,
      Finset.filter_singleton, if_pos hmissing, Finset.union_comm, Finset.singleton_union]
  have hnot : p / 1024 ∉ (ps.map (· / 1024)).toFinset.filter missing := by
    rw [Finset.mem_filter, List.mem_toFinset]
    rintro ⟨hmem, -⟩
    obtain ⟨q, hq, heq⟩ := List.mem_map.mp hmem
    exact hnew q hq heq
  unfold framesFor
  rw [hmore, Finset.card_insert_of_notMem hnot, List.length_append, List.length_singleton]
  omega

theorem framesFor_lt (ps : List Int) (p : Int) :
    framesFor missing ps < framesFor missing (ps ++ [p]) := by
  by_cases h : missing (p / 1024) ∧ ∀ q ∈ ps, q / 1024 ≠ p / 1024
  · rw [framesFor_missing h.1 h.2]
    omega
  · rw [framesFor_there h]
    omega

theorem framesFor_mono (ps qs : List Int) :
    framesFor missing ps ≤ framesFor missing (ps ++ qs) := by
  unfold framesFor
  rw [List.length_append, List.map_append, List.toFinset_append]
  have hsub : (ps.map (· / 1024)).toFinset ⊆
      (ps.map (· / 1024)).toFinset ∪ (qs.map (· / 1024)).toFinset := Finset.subset_union_left
  have hcard := Finset.card_le_card (Finset.filter_subset_filter missing hsub)
  omega

end

namespace Copying

/-! ## What `copy_maps` asks for -/

/-- A page of a shared, anonymous mapping that the parent has not got. -/
def Refused (d : PageDir) (w : Vma × Int) : Prop :=
  has w.1.flags mapShared = true ∧ has w.1.flags mapAnonymous = true ∧ d.pte (pageOf w.2) = none

/-- The pages that are copied to the child. -/
def copied (d : PageDir) (ws : List (Vma × Int)) : List Int :=
  (ws.filter fun w => ¬ has w.1.flags mapShared ∧ ¬ d.pte (pageOf w.2) = none).map
    fun w => pageOf w.2

/-- The pages that the parent gets. -/
def filled (d : PageDir) (ws : List (Vma × Int)) : List Int :=
  (ws.filter fun w => has w.1.flags mapShared ∧ d.pte (pageOf w.2) = none).map
    fun w => pageOf w.2

/-- The frames that `copy_maps` asks for, for a child that lacks some page tables. -/
def demand (d : PageDir) (missing : Int → Prop) [DecidablePred missing] (ws : List (Vma × Int)) :
    Nat :=
  framesFor missing (copied d ws) + framesFor (fun i => d.table i = none) (filled d ws)

/-- The mappings have no page in common and are not empty; `stored_size` is 0 because the code sets
it to nothing else. -/
structure Tidy (t : Table) : Prop where
  disjoint : t.PageDisjoint
  len_pos : ∀ i, t.Live i → 0 < (t.vmas i).len
  len_lt : ∀ i, t.Live i → (t.vmas i).len < 2 ^ 31
  stored : ∀ i, t.Live i → (t.vmas i).storedSize = 0

/-- `copy_maps` fails: it comes to a page that `do_map_helper` refuses, or there are too few
frames. -/
def Stops (m : Machine) (missing : Int → Prop) [DecidablePred missing] : Prop :=
  (∃ w ∈ work m.maps, Refused m.dir w) ∨ m.free.length < demand m.dir missing (work m.maps)

/-! ## One round -/

variable {m : Machine} {child : PageDir} {maps : Table} {s s' : Copying} {w : Vma × Int}
variable {missing : Int → Prop} [DecidablePred missing] {ws : List (Vma × Int)}

theorem mem_filled {p : Int} (h : p ∈ filled m.dir ws) : p ∈ ws.map fun w => pageOf w.2 := by
  obtain ⟨w, hw, rfl⟩ := List.mem_map.mp h
  exact List.mem_map.mpr ⟨w, List.mem_of_mem_filter hw, rfl⟩

theorem copied_snoc (ws : List (Vma × Int)) (w : Vma × Int) : copied m.dir (ws ++ [w]) =
    if ¬ has w.1.flags mapShared ∧ ¬ m.dir.pte (pageOf w.2) = none then
      copied m.dir ws ++ [pageOf w.2] else copied m.dir ws := by
  unfold copied
  rw [List.filter_append, List.map_append]
  split
  · rename_i h
    rw [List.filter_cons_of_pos (by simpa using h)]
    rfl
  · rename_i h
    rw [List.filter_cons_of_neg (by simpa using h)]
    exact List.append_nil _

theorem filled_snoc (ws : List (Vma × Int)) (w : Vma × Int) : filled m.dir (ws ++ [w]) =
    if has w.1.flags mapShared ∧ m.dir.pte (pageOf w.2) = none then
      filled m.dir ws ++ [pageOf w.2] else filled m.dir ws := by
  unfold filled
  rw [List.filter_append, List.map_append]
  split
  · rename_i h
    rw [List.filter_cons_of_pos (by simpa using h)]
    rfl
  · rename_i h
    rw [List.filter_cons_of_neg (by simpa using h)]
    exact List.append_nil _

theorem demand_mono (ws ws' : List (Vma × Int)) :
    demand m.dir missing ws ≤ demand m.dir missing (ws ++ ws') := by
  unfold demand copied filled
  rw [List.filter_append, List.filter_append, List.map_append, List.map_append]
  exact Nat.add_le_add (framesFor_mono _ _) (framesFor_mono _ _)

/-- What some rounds have taken. -/
structure Counted (m : Machine) (missing : Int → Prop) [DecidablePred missing]
    (ws : List (Vma × Int)) (s : Copying) : Prop where
  maps : s.parent.maps = m.maps
  free : s.parent.free.length + demand m.dir missing ws = m.free.length
  pte : ∀ p, p ∉ filled m.dir ws → s.parent.dir.pte p = m.dir.pte p
  parentTable : ∀ i, s.parent.dir.table i = none ↔
    m.dir.table i = none ∧ ∀ p ∈ filled m.dir ws, p / 1024 ≠ i
  childTable : ∀ i, s.child.table i = none ↔ missing i ∧ ∀ p ∈ copied m.dir ws, p / 1024 ≠ i
  refused : ∀ w ∈ ws, ¬ Refused m.dir w

/-- A directory has the page tables that were not missing and those of some pages. -/
def HasTables (d : PageDir) (missing : Int → Prop) (ps : List Int) : Prop :=
  ∀ i, d.table i = none ↔ missing i ∧ ∀ p ∈ ps, p / 1024 ≠ i

/-- Mapping a page that is not present, counted. -/
theorem HasTables.onePage {d : PageDir} {ps : List Int} {p va : Int} {rest : List Nat} {f : Nat}
    {perm : UInt32} {r : Except Halt (Bool × PageDir × List Nat)} (h : HasTables d missing ps)
    (hp : pageOf va = p) (hone : PageDir.OnePage d rest va f perm r) :
    (r = .ok (false, d, []) ∧ rest = [] ∧
        framesFor missing (ps ++ [p]) = framesFor missing ps + 2) ∨
      ∃ d' rest', r = .ok (true, d', rest') ∧
        rest'.length + framesFor missing (ps ++ [p]) = rest.length + framesFor missing ps + 1 ∧
        HasTables d' missing (ps ++ [p]) ∧
        d'.pte = Function.update d.pte p (some ⟨f, perm⟩) := by
  have hpdx : pdx va = p / 1024 := by rw [← hp, Pgdir.pageOf_div]
  cases hone with
  | noTable missing' empty eq =>
    rw [hpdx] at missing'
    obtain ⟨hmissing, hnew⟩ := (h _).mp missing'
    exact .inl ⟨eq, empty, framesFor_missing hmissing hnew⟩
  | mapped d' there table pte eq =>
    rw [hpdx] at there
    rw [hp] at pte
    have hthere := mt (h (p / 1024)).mpr there
    refine .inr ⟨d', rest, eq, by rw [framesFor_there hthere]; omega, ?_, pte⟩
    intro i
    rw [table, h i]
    simp only [List.mem_append, List.mem_singleton]
    constructor
    · rintro ⟨hi, hold⟩
      refine ⟨hi, ?_⟩
      rintro q (hq | rfl)
      · exact hold q hq
      · rintro rfl
        exact hthere ⟨hi, hold⟩
    · rintro ⟨hi, hall⟩
      exact ⟨hi, fun q hq => hall q (.inl hq)⟩
  | newTable d' g rest' missing' taken table pte eq =>
    rw [hpdx] at missing' table
    rw [hp] at pte
    obtain ⟨hmissing, hnew⟩ := (h _).mp missing'
    refine .inr ⟨d', rest', eq, ?_, ?_, pte⟩
    · rw [framesFor_missing hmissing hnew, taken, List.length_cons]
      omega
    · intro i
      rw [table, Function.update_apply]
      simp only [List.mem_append, List.mem_singleton]
      by_cases hi : i = p / 1024
      · rw [if_pos hi]
        refine ⟨fun hnone => absurd hnone (Option.some_ne_none g), ?_⟩
        rintro ⟨-, hall⟩
        exact absurd hi.symm (hall p (.inr rfl))
      · rw [if_neg hi, h i]
        constructor
        · rintro ⟨hm, hold⟩
          refine ⟨hm, ?_⟩
          rintro q (hq | rfl)
          · exact hold q hq
          · exact fun heq => hi heq.symm
        · rintro ⟨hm, hall⟩
          exact ⟨hm, fun q hq => hall q (.inl hq)⟩

/-- Where the frames have run out. -/
def Short (m : Machine) (missing : Int → Prop) [DecidablePred missing] (ws : List (Vma × Int))
    (w : Vma × Int) : CopyStop → Prop
  | .halt _ => True
  | .failed _ => Refused m.dir w ∨ m.free.length < demand m.dir missing (ws ++ [w])

/-- A round for a page of a private mapping. -/
theorem Counted.copy {p : Int} (h : Counted m missing ws s)
    (hprivate : ¬ has w.1.flags mapShared = true) (hw : w.2 = p * pgsize) (h0 : 0 ≤ p)
    (hhi : p * pgsize + pgsize ≤ 2 ^ 32) (hnew : p ∉ ws.map fun w => pageOf w.2) :
    Yields (Counted m missing (ws ++ [w])) (Short m missing ws w) (copyPage w.1 s w.2) := by
  have hpage : pageOf w.2 = p := by
    rw [hw]
    unfold pageOf pgsize
    omega
  have hfilled : filled m.dir (ws ++ [w]) = filled m.dir ws := by
    rw [filled_snoc, if_neg (fun hs => hprivate hs.1)]
  have hrefused : ∀ v ∈ ws ++ [w], ¬ Refused m.dir v := by
    intro v hv
    rcases List.mem_append.mp hv with hv | hv
    · exact h.refused v hv
    · rw [List.mem_singleton.mp hv]
      exact fun hr => hprivate hr.1
  have hsame : s.parent.dir.pte p = m.dir.pte p := h.pte p (mt mem_filled hnew)
  have hfree := h.free
  unfold copyPage
  rw [if_neg hprivate, hpage]
  cases hpte : s.parent.dir.pte p with
  | none =>
    have hcopied : copied m.dir (ws ++ [w]) = copied m.dir ws := by
      rw [copied_snoc, hpage, ← hsame, if_neg (fun hs => hs.2 hpte)]
    refine ⟨h.maps, ?_, ?_, ?_, ?_, hrefused⟩
    · unfold demand at hfree ⊢
      rw [hcopied, hfilled]
      exact hfree
    · rw [hfilled]
      exact h.pte
    · rw [hfilled]
      exact h.parentTable
    · rw [hcopied]
      exact h.childTable
  | some e =>
    have hcopied : copied m.dir (ws ++ [w]) = copied m.dir ws ++ [p] := by
      have hthere : ¬ m.dir.pte p = none := by
        rw [← hsame, hpte]
        exact Option.some_ne_none e
      rw [copied_snoc, hpage, if_pos ⟨hprivate, hthere⟩]
    have hdemand : demand m.dir missing (ws ++ [w]) = framesFor missing (copied m.dir ws ++ [p]) +
        framesFor (fun i => m.dir.table i = none) (filled m.dir ws) := by
      unfold demand
      rw [hcopied, hfilled]
    have hmore : framesFor missing (copied m.dir ws) < framesFor missing (copied m.dir ws ++ [p]) :=
      framesFor_lt _ p
    unfold demand at hfree
    cases hframes : s.parent.free with
    | nil =>
      right
      rw [hdemand, ← hfree, hframes, List.length_nil]
      omega
    | cons mem rest =>
      rw [hframes, List.length_cons] at hfree
      have hmap : s.child.mappages rest w.2 pgsize mem w.1.prot =
          PageDir.mapLoop 1 s.child rest w.2 mem w.1.prot :=
        PageDir.mappages_eq rest mem w.1.prot (by rw [hw]; exact Int.dvd_mul_left _ _)
          (by rw [hw]; unfold pgsize; omega) (by rw [hw]; exact hhi) (by decide) (Int.le_refl _)
      simp only [hmap]
      by_cases habsent : s.child.pte (pageOf w.2) = none
      · have honePage := PageDir.mapLoop_one rest mem w.1.prot habsent
        rcases HasTables.onePage h.childTable hpage honePage with
          ⟨eq, hempty, htwo⟩ | ⟨d', rest', eq, hcount, htables, -⟩
        · rw [eq]
          right
          rw [hdemand, htwo, ← hfree, hempty, List.length_nil]
          omega
        · rw [eq]
          refine ⟨h.maps, ?_, ?_, ?_, ?_, hrefused⟩
          · rw [hdemand]
            simp only
            omega
          · rw [hfilled]
            exact h.pte
          · rw [hfilled]
            exact h.parentTable
          · rw [hcopied]
            exact htables
      · rw [PageDir.mapLoop_panic rest mem w.1.prot habsent]
        exact trivial

/-- A round for a page of a shared mapping. -/
theorem Counted.fill {p : Int} (h : Counted m missing ws s)
    (hshared : has w.1.flags mapShared = true) (hw : w.2 = p * pgsize) (h0 : 0 ≤ p)
    (hhi : p * pgsize + pgsize ≤ 2 ^ 32) (hnew : p ∉ ws.map fun w => pageOf w.2)
    (hsize : 0 < i32 (w.1.len - w.1.storedSize)) :
    Yields (Counted m missing (ws ++ [w])) (Short m missing ws w) (copyPage w.1 s w.2) := by
  have hpage : pageOf w.2 = p := by
    rw [hw]
    unfold pageOf pgsize
    omega
  have hcopied : copied m.dir (ws ++ [w]) = copied m.dir ws := by
    rw [copied_snoc, if_neg (fun hs => hs.1 hshared)]
  have hrefused (hnot : ¬ Refused m.dir w) : ∀ v ∈ ws ++ [w], ¬ Refused m.dir v := by
    intro v hv
    rcases List.mem_append.mp hv with hv | hv
    · exact h.refused v hv
    · rw [List.mem_singleton.mp hv]
      exact hnot
  have hsame : s.parent.dir.pte p = m.dir.pte p := h.pte p (mt mem_filled hnew)
  have hfree := h.free
  unfold copyPage
  rw [if_pos hshared, hpage]
  cases hpte : s.parent.dir.pte p with
  | some e =>
    have hthere : ¬ m.dir.pte p = none := by
      rw [← hsame, hpte]
      exact Option.some_ne_none e
    have hfilled : filled m.dir (ws ++ [w]) = filled m.dir ws := by
      rw [filled_snoc, hpage, if_neg (fun hs => hthere hs.2)]
    refine ⟨h.maps, ?_, ?_, ?_, ?_, hrefused fun hr => hthere (hpage ▸ hr.2.2)⟩
    · unfold demand at hfree ⊢
      rw [hcopied, hfilled]
      exact hfree
    · rw [hfilled]
      exact h.pte
    · rw [hfilled]
      exact h.parentTable
    · rw [hcopied]
      exact h.childTable
  | none =>
    have hnone : m.dir.pte p = none := by
      rw [← hsame]
      exact hpte
    have hfilled : filled m.dir (ws ++ [w]) = filled m.dir ws ++ [p] := by
      rw [filled_snoc, hpage, if_pos ⟨hshared, hnone⟩]
    have hdemand : demand m.dir missing (ws ++ [w]) = framesFor missing (copied m.dir ws) +
        framesFor (fun i => m.dir.table i = none) (filled m.dir ws ++ [p]) := by
      unfold demand
      rw [hcopied, hfilled]
    have hmore : framesFor (fun i => m.dir.table i = none) (filled m.dir ws) <
        framesFor (fun i => m.dir.table i = none) (filled m.dir ws ++ [p]) := framesFor_lt _ p
    unfold demand at hfree
    simp only
    generalize hsz : (if i32 (w.1.len - w.1.storedSize) < pgsize then
      i32 (w.1.len - w.1.storedSize) else pgsize) = size
    have hpos : 0 < size ∧ size ≤ pgsize := by
      rw [← hsz]
      unfold pgsize
      split <;> omega
    unfold Machine.doMapHelper
    cases hframes : s.parent.free with
    | nil =>
      right
      rw [hdemand, ← hfree, hframes, List.length_nil]
      omega
    | cons mem rest =>
      rw [hframes, List.length_cons] at hfree
      have hmap : s.parent.dir.mappages rest (pageOf w.2 * pgsize) size mem
          (Machine.mapPerm w.1) =
          PageDir.mapLoop 1 s.parent.dir rest (p * pgsize) mem (Machine.mapPerm w.1) := by
        rw [hpage]
        exact PageDir.mappages_eq rest mem _ (Int.dvd_mul_left _ _) (by unfold pgsize; omega) hhi
          hpos.1 hpos.2
      have hpage' : pageOf (p * pgsize) = p := by rw [← hw, hpage]
      simp only [hmap]
      rcases HasTables.onePage h.parentTable hpage' (PageDir.mapLoop_one rest mem
          (Machine.mapPerm w.1) (by rw [hpage']; exact hpte)) with
        ⟨eq, hempty, htwo⟩ | ⟨d', rest', eq, hcount, htables, hpte'⟩
      · rw [eq]
        right
        rw [hdemand, htwo, ← hfree, hempty, List.length_nil]
        omega
      · rw [eq]
        simp only
        by_cases hanon : has w.1.flags mapAnonymous = true
        · rw [if_pos hanon]
          exact .inl ⟨hshared, hanon, hpage ▸ hnone⟩
        · rw [if_neg hanon]
          cases hread : Machine.fileread { s.parent with
              free := rest', bytes := s.parent.bytes.fill mem 0, dir := d' } none w.1.file
              (pageOf w.2 * pgsize) (helperReadSize w.1 size) with
          | error e => exact trivial
          | ok r =>
            obtain ⟨r, parent⟩ := r
            obtain ⟨hdir, hrest, hmaps⟩ := Machine.fileread_same hread
            refine ⟨hmaps.trans h.maps, ?_, ?_, ?_, ?_, hrefused fun hr => hanon hr.2.1⟩
            · rw [hdemand]
              simp only
              rw [hrest]
              simp only
              omega
            · intro q hq
              rw [hfilled, List.mem_append, List.mem_singleton, not_or] at hq
              simp only
              rw [hdir]
              simp only
              rw [hpte', Function.update_of_ne hq.2]
              exact h.pte q hq.1
            · rw [hfilled]
              simp only
              rw [hdir]
              exact htables
            · rw [hcopied]
              exact h.childTable

/-! ## All rounds -/

theorem Tidy.mem_pages {t : Table} (h : Tidy t) {i : Int} (hi : t.Live i) {start : Int} :
    start ∈ (t.vmas i).pages ↔ ∃ p, (t.vmas i).HasPage p ∧ start = p * pgsize :=
  Vma.mem_pages_iff_hasPage (h.disjoint.aligned i hi) (h.disjoint.addr_nonneg i hi)
    (Int.le_of_lt (h.len_pos i hi)) (h.disjoint.end_le i hi)

theorem Tidy.nodup_work {t : Table} (h : Tidy t) : ((work t).map fun w => pageOf w.2).Nodup := by
  apply P5.nodup_work
  intro w w' i j hw hw' hpage
  obtain ⟨p, hp, hstart⟩ := (h.mem_pages hw.live).mp hw.start
  obtain ⟨q, hq, hstart'⟩ := (h.mem_pages hw'.live).mp hw'.start
  by_contra hne
  have hpq : p = q := by
    rw [hstart, hstart'] at hpage
    unfold pageOf pgsize at hpage
    omega
  exact h.disjoint.disjoint i j hw.live hw'.live hne p hp (hpq ▸ hq)

/-- A round of `copy_maps`. -/
theorem Counted.round (h : Counted m missing ws s) (htidy : Tidy m.maps) {rest : List (Vma × Int)}
    (hwork : work m.maps = ws ++ w :: rest) :
    Yields (Counted m missing (ws ++ [w])) (Short m missing ws w) (copyPage w.1 s w.2) := by
  have hk : kernBase = 0x80000000 := rfl
  have hmem : w ∈ work m.maps := by
    rw [hwork]
    exact List.mem_append_right ws List.mem_cons_self
  obtain ⟨i, hlive, hvma, hstart⟩ := mem_work.mp hmem
  obtain ⟨p, ⟨hlo, hhi⟩, hp⟩ := (htidy.mem_pages hlive).mp hstart
  have h0 := htidy.disjoint.addr_nonneg i hlive
  have hend := htidy.disjoint.end_le i hlive
  have hpos := htidy.len_pos i hlive
  have hlt := htidy.len_lt i hlive
  have hp0 : 0 ≤ p := by
    unfold pgsize at hlo
    omega
  have hhigh : p * pgsize + pgsize ≤ 2 ^ 32 := by
    unfold pgsize at *
    omega
  have hnew : p ∉ ws.map fun w => pageOf w.2 := by
    have hnodup := htidy.nodup_work
    rw [hwork, List.map_append, List.map_cons, List.nodup_append] at hnodup
    intro hold
    refine hnodup.2.2 p hold (pageOf w.2) List.mem_cons_self ?_
    rw [hp]
    unfold pageOf pgsize
    omega
  by_cases hshared : has w.1.flags mapShared = true
  · refine h.fill hshared hp hp0 hhigh hnew ?_
    rw [hvma, htidy.stored i hlive, Int.sub_zero, i32_of_mem (by omega) (by omega)]
    exact hpos
  · exact h.copy hshared hp hp0 hhigh hnew

/-- The rounds of `copy_maps`, counted. -/
theorem copyMaps_counted (htidy : Tidy m.maps) (hchild : ∀ i, child.table i = none ↔ missing i) :
    (∀ s, m.copyMaps child maps = .ok s → ¬ Stops m missing) ∧
      ∀ s, m.copyMaps child maps = .error (.failed s) → Stops m missing := by
  let ofEntry : Nat → List (Vma × Int) := fun i =>
    (m.maps.vmas i).pages.map fun start => (m.maps.vmas i, start)
  have hinit : Counted m missing [] ⟨m, child, maps⟩ := by
    refine ⟨rfl, ?_, fun _ _ => rfl, ?_, ?_, fun w hw => absurd hw List.not_mem_nil⟩
    · show m.free.length + 0 = m.free.length
      exact Nat.add_zero _
    · intro i
      exact ⟨fun hnone => ⟨hnone, fun p hp => absurd hp List.not_mem_nil⟩, fun hnone => hnone.1⟩
    · intro i
      rw [hchild i]
      exact ⟨fun hnone => ⟨hnone, fun p hp => absurd hp List.not_mem_nil⟩, fun hnone => hnone.1⟩
  have hfailed {ws : List (Vma × Int)} {w : Vma × Int} {rest : List (Vma × Int)} {e : CopyStop}
      (hwork : work m.maps = ws ++ w :: rest) (h : Short m missing ws w e) :
      ∀ s, e = .failed s → Stops m missing := by
    rintro s rfl
    rcases h with hrefused | hshort
    · refine .inl ⟨w, ?_, hrefused⟩
      rw [hwork]
      exact List.mem_append_right ws List.mem_cons_self
    · right
      refine Nat.lt_of_lt_of_le hshort ?_
      rw [hwork, List.append_cons ws w rest]
      apply demand_mono
  have hloop : Yields (fun s => Counted m missing (work m.maps) s)
      (fun e => ∀ s, e = .failed s → Stops m missing)
      ((List.range m.maps.totalVmas.toNat).foldlM copyEntry ⟨m, child, maps⟩) := by
    refine Yields.foldlM_prefix (fun is s => Counted m missing (is.flatMap ofEntry) s) hinit ?_
    intro is i rest t hrange ht
    -- the pages of one entry
    have hpages : Yields (fun s => Counted m missing (is.flatMap ofEntry ++ ofEntry i) s)
        (fun e => ∀ s, e = .failed s → Stops m missing)
        ((m.maps.vmas i).pages.foldlM (copyPage (m.maps.vmas i)) t) := by
      have hwork : work m.maps = is.flatMap ofEntry ++ (ofEntry i ++ rest.flatMap ofEntry) := by
        unfold work
        rw [hrange, List.flatMap_append, List.flatMap_cons]
      refine Yields.foldlM_prefix (fun starts s => Counted m missing
        (is.flatMap ofEntry ++ starts.map fun start => (m.maps.vmas i, start)) s) ?_ ?_
      · rw [List.map_nil, List.append_nil]
        exact ht
      · intro starts start later t' hstarts ht'
        have hsplit : work m.maps = (is.flatMap ofEntry ++ starts.map fun start =>
            (m.maps.vmas i, start)) ++ (m.maps.vmas i, start) ::
              ((later.map fun start => (m.maps.vmas i, start)) ++ rest.flatMap ofEntry) := by
          rw [hwork]
          show _ ++ (((m.maps.vmas i).pages.map fun start => (m.maps.vmas i, start)) ++ _) = _
          rw [hstarts, List.map_append, List.map_cons]
          simp only [List.append_assoc, List.cons_append]
        have hround := ht'.round htidy hsplit
        cases hr : copyPage (m.maps.vmas i) t' start with
        | ok t'' =>
          rw [hr] at hround
          show Counted m missing _ t''
          rw [List.map_append, ← List.append_assoc]
          exact hround
        | error e =>
          rw [hr] at hround
          exact hfailed hsplit hround
    rw [copyEntry, ht.maps]
    cases hr : (m.maps.vmas i).pages.foldlM (copyPage (m.maps.vmas i)) t with
    | error e =>
      rw [hr] at hpages
      exact hpages
    | ok t' =>
      rw [hr] at hpages
      have hcounted : Counted m missing (is.flatMap ofEntry ++ ofEntry i) t' := hpages
      show Counted m missing ((is ++ [i]).flatMap ofEntry) (t'.copyVma i (m.maps.vmas i))
      rw [List.flatMap_append, List.flatMap_singleton]
      obtain ⟨h1, h2, h3, h4, h5, h6⟩ := hcounted
      exact ⟨h1, h2, h3, h4, h5, h6⟩
  unfold Machine.copyMaps
  cases hr : (List.range m.maps.totalVmas.toNat).foldlM copyEntry ⟨m, child, maps⟩ with
  | ok t =>
    rw [hr] at hloop
    have hcounted : Counted m missing (work m.maps) t := hloop
    refine ⟨?_, fun s hs => (by cases hs)⟩
    rintro s -
    rintro (⟨w, hw, hrefused⟩ | hshort)
    · exact hcounted.refused w hw hrefused
    · have := hcounted.free
      omega
  | error e =>
    rw [hr] at hloop
    refine ⟨fun s hs => (by cases hs), ?_⟩
    intro s hs
    cases hs
    exact hloop s rfl

end Copying

end Cs537.P5
