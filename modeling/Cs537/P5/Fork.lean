import Cs537.P5.Paging
import Cs537.P5.Stale
import Mathlib.Data.List.Nodup
import Mathlib.Data.List.Range

/-!
# Shared mappings across `fork`

`fork` (`proc.c:182-239`) copies the memory of the parent with `copyuvm` and its mappings with
`copy_maps`. For a mapping that is `MAP_SHARED` the latter makes sure that the parent has a frame
for each page, but the call that would map it in the child is commented out, so a page fault gives
the child a frame of its own; and `do_map_helper`, which gets the parent a missing frame, reports
an error for every mapping that is `MAP_ANONYMOUS`. What a process reads and writes is left out
here, and so is what `fileread` copies into a new frame.
-/

namespace Cs537.P5

open Cs537.Lib

/-- The fields of `struct proc` (`proc.h`) that memory depends on. -/
structure Proc where
  pgdir : Pgdir
  sz : Int
  maps : Table

/-- What `copy_maps` changes, besides the table of the child. -/
structure Forking where
  parent : Pgdir
  child : Pgdir
  free : List Nat

/-- `do_map_helper` (`sys_mmap.c:44-82`), which fails at its end for an anonymous mapping. -/
def doMapHelper (d : Pgdir) (free : List Nat) (size faultAddr : Int) (vma : Vma) :
    Except Stop (Pgdir × List Nat) :=
  match kalloc free with
  | .error e => .error e
  | .ok (mem, free) =>
    match d.mappages free (pageOf faultAddr * pgsize) size mem with
    | .error e => .error e
    | .ok s => if has vma.flags mapAnonymous then .error .failed else .ok s

/-- The body of the inner loop of `copy_maps` (`sys_mmap.c:93-135`), for the page at `start`. -/
def copyPage (vma : Vma) (s : Forking) (start : Int) : Except Stop Forking :=
  if has vma.flags mapShared then
    match s.parent.frameAt start with
    | some _ => .ok s
    | none =>
      let totalMmapSize := i32 (vma.len - vma.storedSize)
      let size := if totalMmapSize < pgsize then totalMmapSize else pgsize
      match doMapHelper s.parent s.free size start vma with
      | .error e => .error e
      | .ok (parent, free) => .ok { s with parent := parent, free := free }
  else
    match s.parent.frameAt start with
    | none => .ok s
    | some _ =>
      match kalloc s.free with
      | .error e => .error e
      | .ok (mem, free) =>
        match s.child.mappages free start pgsize mem with
        | .error e => .error e
        | .ok (child, free) => .ok { s with child := child, free := free }

/-- The values of `start` in that loop (`sys_mmap.c:92`), for a mapping that does not reach the end
of the address space. -/
def Vma.pages (vma : Vma) : List Int :=
  (List.range ((u32 (vma.addr + vma.len) - u32 vma.addr + 4095) / 4096).toNat).map
    fun (k : Nat) => u32 vma.addr + pgsize * k

/-- The loops of `copy_maps` (`sys_mmap.c:86-141`) as far as frames go. -/
def copyMaps (t : Table) (s : Forking) : Except Stop Forking :=
  (List.range t.totalVmas.toNat).foldlM
    (fun s (i : Nat) => (t.vmas i).pages.foldlM (copyPage (t.vmas i)) s) s

/-- An entry of the table of the child after `copy_maps` (`sys_mmap.c:137-140`) and the loop of
`fork` over the entries in use (`proc.c:216-221`). -/
def inherit (parent child : Vma) : Vma :=
  if parent.inUse ≠ 0 then parent
  else if has parent.flags mapShared then { copyMmapStruct child parent with refCount := 1 }
  else copyMmapStruct child parent

/-- The table of the child, whose slot held `slot`. -/
def copyTable (t slot : Table) : Table where
  vmas i := if 0 ≤ i ∧ i < t.totalVmas then inherit (t.vmas i) (slot.vmas i) else slot.vmas i
  totalVmas := t.totalVmas

/-- `fork` (`proc.c:182-239`): the parent, the child and the free list. `slot` is what the table of
an `UNUSED` process holds, if `allocproc` finds one. -/
def fork (p : Proc) (slot : Option Table) (free : List Nat) :
    Except Stop (Proc × Proc × List Nat) :=
  match slot with
  | none => .error .failed
  | some slot =>
    match kalloc free with
    | .error e => .error e
    | .ok (_, free) =>
      match p.pgdir.copyuvm p.sz free with
      | .error e => .error e
      | .ok (pgdir, free) =>
        match copyMaps p.maps ⟨p.pgdir, pgdir, free⟩ with
        | .error e => .error e
        | .ok s =>
          .ok ({ p with pgdir := s.parent },
            { pgdir := s.child, sz := p.sz, maps := copyTable p.maps slot.allocproc }, s.free)

/-- An access of a process to an address: the page is mapped, or the page fault handler
(`trap.c:64-147`) runs and `do_map` maps it. -/
def Proc.touch (q : Proc) (free : List Nat) (va : Int) : Except Stop (Proc × List Nat) :=
  match q.pgdir.frameAt va with
  | some _ => .ok (q, free)
  | none =>
    match q.maps.pgftHandler va (q.pgdir.table (pdx va)) with
    | (.killed, _) => .error .failed
    | (.doMap _, maps) =>
      match kalloc free with
      | .error e => .error e
      | .ok (mem, free) =>
        match q.pgdir.mappages free (pageOf va * pgsize) pgsize mem with
        | .error e => .error e
        | .ok (pgdir, free) => .ok ({ q with pgdir := pgdir, maps := maps }, free)

/-- The two processes have the same frame at an address once `p` and then `q` have touched it. -/
def SameFrame (p q : Proc) (free : List Nat) (va : Int) : Prop :=
  ∃ p' q' free₁ free₂ f, p.touch free va = .ok (p', free₁) ∧ q.touch free₁ va = .ok (q', free₂) ∧
    p'.pgdir.frameAt va = some f ∧ q'.pgdir.frameAt va = some f

/-- The addresses of a mapping. -/
def Vma.Covers (vma : Vma) (va : Int) : Prop := vma.addr ≤ va ∧ va < vma.addr + vma.len

/-- The entries of a table that are live. -/
def Table.Live (t : Table) (i : Int) : Prop := 0 ≤ i ∧ i < t.totalVmas

/-- `fork` succeeds, and then every page of every shared mapping is one page for both processes,
whoever touches it first. -/
def StaysShared (p : Proc) (slot : Table) (free : List Nat) : Prop :=
  ∃ parent child free', fork p (some slot) free = .ok (parent, child, free') ∧
    ∀ i, p.maps.Live i → has (p.maps.vmas i).flags mapShared →
      ∀ va, (p.maps.vmas i).Covers va →
        SameFrame parent child free' va ∧ SameFrame child parent free' va

/-- The rounds of the inner loop of `copy_maps`. -/
def work (t : Table) : List (Vma × Int) :=
  (List.range t.totalVmas.toNat).flatMap fun (i : Nat) =>
    (t.vmas i).pages.map fun start => (t.vmas i, start)

/-- What the caller of `fork` provides: the memory of the process is there, its mappings are page
aligned, lie between that memory and `KERNBASE` and do not overlap, no frame of it is free, and
there are enough free frames. `stored_size` is 0 because the code sets it to nothing else. -/
structure Ready (p : Proc) (free : List Nat) : Prop where
  sz_nonneg : 0 ≤ p.sz
  sz_le : p.sz ≤ mmapBase
  present : ∀ k < Pgdir.userPages p.sz, p.pgdir.frameAt (pgsize * k) ≠ none
  aligned : ∀ i, p.maps.Live i → pgsize ∣ (p.maps.vmas i).addr
  len_mem : ∀ i, p.maps.Live i → 0 ≤ (p.maps.vmas i).len ∧ (p.maps.vmas i).len < 2 ^ 31
  above : ∀ i, p.maps.Live i → pgsize * Pgdir.userPages p.sz ≤ (p.maps.vmas i).addr
  below : ∀ i, p.maps.Live i → (p.maps.vmas i).addr + (p.maps.vmas i).len ≤ kernBase
  disjoint : ∀ i j, p.maps.Live i → p.maps.Live j → i ≠ j →
    ∀ va, (p.maps.vmas i).Covers va → ¬ (p.maps.vmas j).Covers va
  stored : ∀ i, p.maps.Live i → (p.maps.vmas i).storedSize = 0
  nodup : free.Nodup
  used : ∀ va f, p.pgdir.frameAt va = some f → f ∉ free
  enough : 1 + Pgdir.kvmFrames + 2 * Pgdir.userPages p.sz + 2 * (work p.maps).length ≤ free.length

/-! ## The rounds -/

variable {p : Proc} {slot : Table} {free free' : List Nat}

theorem copyMaps_eq (t : Table) (s : Forking) :
    copyMaps t s = (work t).foldlM (fun s w => copyPage w.1 s w.2) s := by
  unfold copyMaps work
  rw [← foldlM_flatMap]
  simp only [List.foldlM_map]

/-- A round of the loop, taken apart: the mapping it is for, and the page in it. -/
structure Round (t : Table) (w : Vma × Int) (i : Int) : Prop where
  live : t.Live i
  vma : w.1 = t.vmas i
  start : w.2 ∈ (t.vmas i).pages

theorem mem_work {t : Table} {w : Vma × Int} : w ∈ work t ↔ ∃ i, Round t w i := by
  unfold work
  constructor
  · intro hw
    obtain ⟨i, hi, hw⟩ := List.mem_flatMap.mp hw
    obtain ⟨start, hstart, rfl⟩ := List.mem_map.mp hw
    have hlt := List.mem_range.mp hi
    exact ⟨i, ⟨Int.natCast_nonneg i, by omega⟩, rfl, hstart⟩
  · rintro ⟨i, ⟨h0, hlt⟩, hvma, hstart⟩
    obtain ⟨k, rfl⟩ := Int.eq_ofNat_of_zero_le h0
    refine List.mem_flatMap.mpr ⟨k, List.mem_range.mpr (by omega), ?_⟩
    exact List.mem_map.mpr ⟨w.2, hstart, Prod.ext hvma.symm rfl⟩

/-- The address of a page of a mapping is aligned and inside the mapping. -/
theorem Vma.mem_pages {v : Vma} (haligned : pgsize ∣ v.addr) (h0 : 0 ≤ v.addr) (hlen : 0 ≤ v.len)
    (hend : v.addr + v.len ≤ kernBase) {start : Int} :
    start ∈ v.pages ↔ pgsize ∣ start ∧ v.Covers start := by
  obtain ⟨c, hc⟩ := haligned
  unfold kernBase at hend
  unfold Vma.pages Vma.Covers
  rw [u32_of_mem h0 (by omega), u32_of_mem (by omega) (by omega), List.mem_map]
  unfold pgsize at *
  constructor
  · rintro ⟨k, hk, rfl⟩
    have hlt := List.mem_range.mp hk
    exact ⟨⟨c + k, by omega⟩, by omega, by omega⟩
  · rintro ⟨⟨b, rfl⟩, hlo, hhi⟩
    exact ⟨(b - c).toNat, List.mem_range.mpr (by omega), by omega⟩

theorem Ready.mem_pages (ready : Ready p free) {i : Int} (hlive : p.maps.Live i) {start : Int} :
    start ∈ (p.maps.vmas i).pages ↔ pgsize ∣ start ∧ (p.maps.vmas i).Covers start := by
  have habove := ready.above i hlive
  unfold pgsize at habove
  exact Vma.mem_pages (ready.aligned i hlive) (by omega) (ready.len_mem i hlive).1
    (ready.below i hlive)

theorem eq_of_pageOf {a b : Int} (ha : pgsize ∣ a) (hb : pgsize ∣ b) (h : pageOf a = pageOf b) :
    a = b := by
  obtain ⟨c, rfl⟩ := ha
  obtain ⟨d, rfl⟩ := hb
  unfold pageOf pgsize at *
  omega

/-- Two rounds that are for the same page are for the same mapping. -/
theorem Ready.same_mapping (ready : Ready p free) {w w' : Vma × Int} {i j : Int}
    (hw : Round p.maps w i) (hw' : Round p.maps w' j) (hpage : pageOf w.2 = pageOf w'.2) : i = j := by
  obtain ⟨haligned, hcovers⟩ := (ready.mem_pages hw.live).mp hw.start
  obtain ⟨haligned', hcovers'⟩ := (ready.mem_pages hw'.live).mp hw'.start
  by_contra hne
  have hsame := eq_of_pageOf haligned haligned' hpage
  exact ready.disjoint i j hw.live hw'.live hne w.2 hcovers (hsame ▸ hcovers')

/-- `mappages` of at most one page in a mapping. -/
theorem Ready.mappages_eq (ready : Ready p free) {w : Vma × Int} {i : Int}
    (hw : Round p.maps w i) (d : Pgdir) (rest : List Nat) {size : Int} (hpos : 0 < size)
    (hle : size ≤ pgsize) (f : Nat) :
    d.mappages rest w.2 size f = Pgdir.mapLoop 1 d rest w.2 f := by
  obtain ⟨haligned, hlo, hhi⟩ := (ready.mem_pages hw.live).mp hw.start
  have habove := ready.above i hw.live
  have hbelow := ready.below i hw.live
  refine Pgdir.mappages_eq haligned ?_ ?_ hpos hle
  · unfold pgsize at habove
    omega
  · unfold pgsize kernBase at *
    omega

/-- The size that `copy_maps` passes to `do_map_helper` is positive and at most a page. -/
theorem Ready.helper_size (ready : Ready p free) {w : Vma × Int} {i : Int}
    (hw : Round p.maps w i) :
    0 < (if i32 (w.1.len - w.1.storedSize) < pgsize then i32 (w.1.len - w.1.storedSize)
        else pgsize) ∧
      (if i32 (w.1.len - w.1.storedSize) < pgsize then i32 (w.1.len - w.1.storedSize)
        else pgsize) ≤ pgsize := by
  obtain ⟨-, hlo, hhi⟩ := (ready.mem_pages hw.live).mp hw.start
  have hlen := ready.len_mem i hw.live
  unfold pgsize
  rw [hw.vma, ready.stored i hw.live, Int.sub_zero, i32_of_mem (by omega) (by omega)]
  split <;> omega

theorem pageOf_mul_pgsize {a : Int} (ha : pgsize ∣ a) : pageOf a * pgsize = a :=
  Int.ediv_mul_cancel ha

/-- What a round does: nothing, or it maps its page in the directory of the parent (a page of a
shared file) or of the child (a page of a private mapping that the parent has). -/
theorem Ready.copyPage_cases (ready : Ready p free) {w : Vma × Int} {i : Int}
    (hw : Round p.maps w i) {s s' : Forking} (h : copyPage w.1 s w.2 = .ok s') :
    (has w.1.flags mapShared = true ∧ s.parent.frameAt w.2 ≠ none ∧ s' = s) ∨
    (has w.1.flags mapShared = true ∧ ∃ mem rest d rest',
      s.free = mem :: rest ∧ Pgdir.mapLoop 1 s.parent rest w.2 mem = .ok (d, rest') ∧
        s' = { s with parent := d, free := rest' }) ∨
    (has w.1.flags mapShared = false ∧ s' = s) ∨
    (has w.1.flags mapShared = false ∧ ∃ mem rest d rest',
      s.free = mem :: rest ∧ Pgdir.mapLoop 1 s.child rest w.2 mem = .ok (d, rest') ∧
        s' = { s with child := d, free := rest' }) := by
  obtain ⟨sp, sc, sf⟩ := s
  unfold copyPage at h
  cases hshared : has w.1.flags mapShared with
  | true =>
    rw [hshared, if_pos rfl] at h
    cases hframe : sp.frameAt w.2 with
    | some g =>
      simp only [hframe] at h
      cases h
      exact .inl ⟨rfl, by simp, rfl⟩
    | none =>
      refine .inr (.inl ⟨rfl, ?_⟩)
      obtain ⟨haligned, -⟩ := (ready.mem_pages hw.live).mp hw.start
      obtain ⟨hpos, hle⟩ := ready.helper_size hw
      cases sf with
      | nil =>
        simp only [hframe, doMapHelper, kalloc] at h
        cases h
      | cons mem rest =>
        simp only [hframe, doMapHelper, kalloc, pageOf_mul_pgsize haligned,
          ready.mappages_eq hw sp rest hpos hle] at h
        cases hmap : Pgdir.mapLoop 1 sp rest w.2 mem with
        | error e =>
          simp only [hmap] at h
          cases h
        | ok r =>
          simp only [hmap] at h
          cases hanon : has w.1.flags mapAnonymous with
          | true =>
            rw [hanon, if_pos rfl] at h
            cases h
          | false =>
            rw [hanon, if_neg Bool.false_ne_true] at h
            cases h
            exact ⟨mem, rest, r.1, r.2, rfl, hmap, rfl⟩
  | false =>
    rw [hshared, if_neg Bool.false_ne_true] at h
    cases hframe : sp.frameAt w.2 with
    | none =>
      simp only [hframe] at h
      cases h
      exact .inr (.inr (.inl ⟨rfl, rfl⟩))
    | some g =>
      refine .inr (.inr (.inr ⟨rfl, ?_⟩))
      simp only [hframe] at h
      cases sf with
      | nil => cases h
      | cons mem rest =>
        simp only [kalloc, ready.mappages_eq hw sc rest (by decide : 0 < pgsize) (Int.le_refl _)] at h
        cases hmap : Pgdir.mapLoop 1 sc rest w.2 mem with
        | error e =>
          rw [hmap] at h
          cases h
        | ok r =>
          rw [hmap] at h
          cases h
          exact ⟨mem, rest, r.1, r.2, rfl, hmap, rfl⟩

/-! ## What the copy does to a shared page -/

/-- No frame of the parent is free. -/
structure Separate (s : Forking) : Prop where
  nodup : s.free.Nodup
  used : ∀ va f, s.parent.frameAt va = some f → f ∉ s.free

theorem Ready.separate_copyPage (ready : Ready p free) {w : Vma × Int} {i : Int}
    (hw : Round p.maps w i) {s s' : Forking} (hsep : Separate s)
    (h : copyPage w.1 s w.2 = .ok s') : Separate s' := by
  obtain ⟨-, -, rfl⟩ | ⟨-, mem, rest, d, rest', hfree, hmap, rfl⟩ | ⟨-, rfl⟩ |
    ⟨-, mem, rest, d, rest', hfree, hmap, rfl⟩ := ready.copyPage_cases hw h
  · exact hsep
  · obtain ⟨-, hframes, hsuffix⟩ := Pgdir.frameAt_mapLoop hmap
    have hnodup := hsep.nodup
    rw [hfree, List.nodup_cons] at hnodup
    refine ⟨hnodup.2.sublist hsuffix.sublist, ?_⟩
    intro va f hf hmem
    have hrest := hsuffix.subset hmem
    rw [hframes] at hf
    split at hf
    · cases hf
      exact hnodup.1 hrest
    · exact hsep.used va f hf (hfree ▸ List.mem_cons_of_mem mem hrest)
  · exact hsep
  · obtain ⟨-, -, hsuffix⟩ := Pgdir.frameAt_mapLoop hmap
    have hsub : ∀ f ∈ rest', f ∈ s.free := fun f hf =>
      hfree ▸ List.mem_cons_of_mem mem (hsuffix.subset hf)
    have hnodup := hsep.nodup
    rw [hfree, List.nodup_cons] at hnodup
    exact ⟨hnodup.2.sublist hsuffix.sublist, fun va f hf hmem => hsep.used va f hf (hsub f hmem)⟩

/-- The parent keeps its pages. -/
theorem Ready.present_copyPage (ready : Ready p free) {w : Vma × Int} {i : Int}
    (hw : Round p.maps w i) {s s' : Forking} (h : copyPage w.1 s w.2 = .ok s') {va : Int}
    (hva : s.parent.frameAt va ≠ none) : s'.parent.frameAt va ≠ none := by
  obtain ⟨-, -, rfl⟩ | ⟨-, mem, rest, d, rest', -, hmap, rfl⟩ | ⟨-, rfl⟩ |
    ⟨-, mem, rest, d, rest', -, hmap, rfl⟩ := ready.copyPage_cases hw h
  · exact hva
  · obtain ⟨-, hframes, -⟩ := Pgdir.frameAt_mapLoop hmap
    simp only [hframes]
    split
    · exact Option.some_ne_none mem
    · exact hva
  · exact hva
  · exact hva

/-- After the round for a shared page the parent has it. -/
theorem Ready.present_of_shared (ready : Ready p free) {w : Vma × Int} {i : Int}
    (hw : Round p.maps w i) (hshared : has w.1.flags mapShared = true) {s s' : Forking}
    (h : copyPage w.1 s w.2 = .ok s') : s'.parent.frameAt w.2 ≠ none := by
  obtain ⟨-, hpresent, rfl⟩ | ⟨-, mem, rest, d, rest', -, hmap, rfl⟩ | ⟨hprivate, -⟩ |
    ⟨hprivate, -⟩ := ready.copyPage_cases hw h
  · exact hpresent
  · obtain ⟨-, hframes, -⟩ := Pgdir.frameAt_mapLoop hmap
    simp only [hframes, if_true]
    exact Option.some_ne_none mem
  · rw [hshared] at hprivate
    cases hprivate
  · rw [hshared] at hprivate
    cases hprivate

/-- The child gets no page but those of private mappings. -/
theorem Ready.child_copyPage (ready : Ready p free) {w : Vma × Int} {i : Int}
    (hw : Round p.maps w i) {s s' : Forking} (h : copyPage w.1 s w.2 = .ok s') {va : Int}
    (hva : has w.1.flags mapShared = true ∨ pageOf va ≠ pageOf w.2) :
    s'.child.frameAt va = s.child.frameAt va := by
  obtain ⟨-, -, rfl⟩ | ⟨-, mem, rest, d, rest', -, hmap, rfl⟩ | ⟨-, rfl⟩ |
    ⟨hprivate, mem, rest, d, rest', -, hmap, rfl⟩ := ready.copyPage_cases hw h
  · rfl
  · rfl
  · rfl
  · obtain ⟨-, hframes, -⟩ := Pgdir.frameAt_mapLoop hmap
    rw [hprivate] at hva
    simp only [hframes]
    rw [if_neg (hva.resolve_left Bool.false_ne_true)]

/-- `fork` that succeeded, taken apart. -/
theorem fork_ok {parent child : Proc} (h : fork p (some slot) free = .ok (parent, child, free')) :
    ∃ kstack rest pgdir rest' s, free = kstack :: rest ∧
      p.pgdir.copyuvm p.sz rest = .ok (pgdir, rest') ∧
      copyMaps p.maps ⟨p.pgdir, pgdir, rest'⟩ = .ok s ∧
      parent.pgdir = s.parent ∧ child.pgdir = s.child ∧ free' = s.free := by
  unfold fork at h
  cases free with
  | nil => cases h
  | cons kstack rest =>
    simp only [kalloc] at h
    cases hcopy : p.pgdir.copyuvm p.sz rest with
    | error e =>
      simp only [hcopy] at h
      cases h
    | ok r =>
      simp only [hcopy] at h
      cases hmaps : copyMaps p.maps ⟨p.pgdir, r.1, r.2⟩ with
      | error e =>
        simp only [hmaps] at h
        cases h
      | ok s =>
        simp only [hmaps] at h
        cases h
        exact ⟨kstack, rest, r.1, r.2, s, rfl, hcopy, hmaps, rfl, rfl, rfl⟩

/-- After `fork` the parent has a frame for a shared page, which is not free, and the child has
none. -/
theorem Ready.fork_shared (ready : Ready p free) {parent child : Proc}
    (h : fork p (some slot) free = .ok (parent, child, free')) {w : Vma × Int} {i : Int}
    (hw : Round p.maps w i) (hshared : has w.1.flags mapShared = true) :
    (∃ f, parent.pgdir.frameAt w.2 = some f ∧ f ∉ free') ∧ child.pgdir.frameAt w.2 = none := by
  obtain ⟨kstack, rest, pgdir, rest', s, rfl, hcopy, hmaps, hparent, hchild, rfl⟩ := fork_ok h
  obtain ⟨hnone, hsuffix⟩ := Pgdir.frameAt_copyuvm ready.sz_nonneg ready.sz_le hcopy
  obtain ⟨haligned, hlo, hhi⟩ := (ready.mem_pages hw.live).mp hw.start
  have habove := ready.above i hw.live
  rw [copyMaps_eq] at hmaps
  have hround : ∀ {x : Vma × Int}, x ∈ work p.maps → ∃ j, Round p.maps x j := mem_work.mp
  have hsep : Separate s := by
    refine foldlM_invariant Separate hmaps ?_ ?_
    · have hsub : rest'.Sublist (kstack :: rest) := hsuffix.sublist.cons kstack
      exact ⟨ready.nodup.sublist hsub, fun va f hf hmem => ready.used va f hf (hsub.subset hmem)⟩
    · intro x hx t t' ht hstep
      obtain ⟨j, hj⟩ := hround hx
      exact ready.separate_copyPage hj ht hstep
  have hpresent : s.parent.frameAt w.2 ≠ none := by
    refine foldlM_established (fun t : Forking => t.parent.frameAt w.2 ≠ none) hmaps
      (mem_work.mpr ⟨i, hw⟩) (fun t t' hstep => ready.present_of_shared hw hshared hstep) ?_
    intro x hx t t' ht hstep
    obtain ⟨j, hj⟩ := hround hx
    exact ready.present_copyPage hj hstep ht
  have habsent : s.child.frameAt w.2 = none := by
    refine foldlM_invariant (fun t : Forking => t.child.frameAt w.2 = none) hmaps ?_ ?_
    · refine hnone w.2 ?_
      unfold pageOf
      unfold pgsize at habove ⊢
      omega
    · intro x hx t t' ht hstep
      obtain ⟨j, hj⟩ := hround hx
      refine (ready.child_copyPage hj hstep ?_).trans ht
      by_cases hpage : pageOf w.2 = pageOf x.2
      · obtain rfl := ready.same_mapping hw hj hpage
        left
        rw [hj.vma, ← hw.vma, hshared]
      · exact .inr hpage
  obtain ⟨f, hf⟩ := Option.ne_none_iff_exists'.mp hpresent
  rw [hparent, hchild]
  exact ⟨⟨f, hf, hsep.used w.2 f hf⟩, habsent⟩

/-- A page fault maps a frame that was free. -/
theorem Proc.touch_fresh {q q' : Proc} {va : Int} (h0 : 0 ≤ va) (hhi : va < kernBase)
    (hnone : q.pgdir.frameAt va = none) (h : q.touch free va = .ok (q', free')) :
    ∃ f ∈ free, q'.pgdir.frameAt va = some f := by
  unfold touch at h
  rw [hnone] at h
  simp only at h
  split at h
  · cases h
  · cases free with
    | nil => cases h
    | cons mem rest =>
      have hstart : pgsize ∣ pageOf va * pgsize := Int.dvd_mul_left _ _
      have hpage : pageOf (pageOf va * pgsize) = pageOf va := by
        unfold pageOf pgsize
        omega
      have hmul : 0 ≤ pageOf va * pgsize ∧ pageOf va * pgsize + pgsize ≤ 2 ^ 32 := by
        unfold kernBase at hhi
        unfold pageOf pgsize
        omega
      simp only [kalloc, Pgdir.mappages_eq hstart hmul.1 hmul.2 (by decide : 0 < pgsize)
        (Int.le_refl _)] at h
      cases hmap : Pgdir.mapLoop 1 q.pgdir rest (pageOf va * pgsize) mem with
      | error e =>
        rw [hmap] at h
        cases h
      | ok r =>
        rw [hmap] at h
        cases h
        obtain ⟨-, hframes, -⟩ := Pgdir.frameAt_mapLoop hmap
        refine ⟨mem, List.mem_cons_self, ?_⟩
        simp only [hframes, hpage, if_true]

/-! ## The copy of private mappings -/

theorem nodup_pages (vma : Vma) : (vma.pages.map pageOf).Nodup := by
  unfold Vma.pages
  rw [List.map_map]
  refine List.Nodup.map ?_ List.nodup_range
  intro a b hab
  simp only [Function.comp_apply, pageOf, pgsize] at hab
  omega

/-- No page comes up twice where two mappings have no page in common. -/
theorem nodup_work {t : Table} (hsame : ∀ w w' i j, Round t w i → Round t w' j →
    pageOf w.2 = pageOf w'.2 → i = j) : ((work t).map fun w => pageOf w.2).Nodup := by
  unfold work
  rw [List.map_flatMap, List.nodup_flatMap]
  constructor
  · intro i _
    rw [List.map_map]
    exact nodup_pages _
  · refine List.nodup_range.pairwise_of_forall_ne ?_
    intro i hi j hj hne page hpage hpage'
    obtain ⟨w, hw, rfl⟩ := List.mem_map.mp hpage
    obtain ⟨start, hstart, rfl⟩ := List.mem_map.mp hw
    obtain ⟨w', hw', heq⟩ := List.mem_map.mp hpage'
    obtain ⟨start', hstart', rfl⟩ := List.mem_map.mp hw'
    have hi := List.mem_range.mp hi
    have hj := List.mem_range.mp hj
    have hij := hsame (_, start) (_, start') i j ⟨⟨Int.natCast_nonneg i, by omega⟩, rfl, hstart⟩
      ⟨⟨Int.natCast_nonneg j, by omega⟩, rfl, hstart'⟩ heq.symm
    exact hne (Int.ofNat_inj.mp hij)

/-- No page is copied twice. -/
theorem Ready.nodup_work (ready : Ready p free) :
    ((work p.maps).map fun w => pageOf w.2).Nodup :=
  P5.nodup_work fun _ _ _ _ hw hw' hpage => ready.same_mapping hw hw' hpage

/-- What is left of the copy of private mappings can be done. -/
structure CanCopy (p : Proc) (ws : List (Vma × Int)) (s : Forking) : Prop where
  nodup : (ws.map fun w => pageOf w.2).Nodup
  rounds : ∀ w ∈ ws, ∃ i, Round p.maps w i
  isPrivate : ∀ w ∈ ws, has w.1.flags mapShared = false
  absent : ∀ w ∈ ws, s.child.frameAt w.2 = none
  enough : 2 * ws.length ≤ s.free.length

theorem Ready.canCopy_round (ready : Ready p free) {w : Vma × Int} {ws : List (Vma × Int)}
    {s : Forking} (hcan : CanCopy p (w :: ws) s) :
    ∃ s', copyPage w.1 s w.2 = .ok s' ∧ CanCopy p ws s' := by
  obtain ⟨hnodup, hrounds, hprivate, habsent, henough⟩ := hcan
  obtain ⟨i, hw⟩ := hrounds w List.mem_cons_self
  rw [List.map_cons, List.nodup_cons] at hnodup
  rw [List.length_cons] at henough
  have hrounds' : ∀ x ∈ ws, ∃ i, Round p.maps x i :=
    fun x hx => hrounds x (List.mem_cons_of_mem w hx)
  have hprivate' : ∀ x ∈ ws, has x.1.flags mapShared = false :=
    fun x hx => hprivate x (List.mem_cons_of_mem w hx)
  have habsent' : ∀ x ∈ ws, s.child.frameAt x.2 = none :=
    fun x hx => habsent x (List.mem_cons_of_mem w hx)
  unfold copyPage
  rw [hprivate w List.mem_cons_self, if_neg Bool.false_ne_true]
  cases hframe : s.parent.frameAt w.2 with
  | none => exact ⟨s, rfl, hnodup.2, hrounds', hprivate', habsent', by omega⟩
  | some g =>
    obtain ⟨sp, sc, sf⟩ := s
    simp only at henough habsent' ⊢
    obtain ⟨mem, rest, rfl⟩ : ∃ mem rest, sf = mem :: rest :=
      List.exists_cons_of_length_pos (by omega)
    rw [List.length_cons] at henough
    obtain ⟨d, rest', hmap, hlength⟩ := Pgdir.mapLoop_ok (habsent w List.mem_cons_self)
      (show 0 < rest.length by omega) mem
    obtain ⟨-, hframes, -⟩ := Pgdir.frameAt_mapLoop hmap
    simp only [kalloc, ready.mappages_eq hw sc rest (by decide : 0 < pgsize) (Int.le_refl _), hmap]
    refine ⟨_, rfl, hnodup.2, hrounds', hprivate', ?_, ?_⟩
    · intro x hx
      have hne : pageOf x.2 ≠ pageOf w.2 := by
        intro heq
        exact hnodup.1 (heq ▸ List.mem_map.mpr ⟨x, hx, rfl⟩)
      simp only [hframes, if_neg hne]
      exact habsent' x hx
    · simp only
      omega

/-- `fork` succeeds if no mapping with a page is shared. -/
theorem Ready.fork_private (ready : Ready p free) (slot : Table)
    (hprivate : ∀ i, p.maps.Live i → has (p.maps.vmas i).flags mapShared = true →
      (p.maps.vmas i).len = 0) :
    ∃ parent child free', fork p (some slot) free = .ok (parent, child, free') := by
  have henough := ready.enough
  obtain ⟨kstack, rest, rfl⟩ : ∃ kstack rest, free = kstack :: rest :=
    List.exists_cons_of_length_pos (by omega)
  rw [List.length_cons] at henough
  obtain ⟨d, rest', hcopy, hlength⟩ := Pgdir.copyuvm_ok ready.sz_nonneg ready.sz_le ready.present
    (show Pgdir.kvmFrames + 2 * Pgdir.userPages p.sz ≤ rest.length by omega)
  obtain ⟨hnone, -⟩ := Pgdir.frameAt_copyuvm ready.sz_nonneg ready.sz_le hcopy
  have hinit : CanCopy p (work p.maps) ⟨p.pgdir, d, rest'⟩ := by
    refine ⟨ready.nodup_work, fun w hw => mem_work.mp hw, ?_, ?_, by simp only; omega⟩
    · intro w hw
      obtain ⟨i, hround⟩ := mem_work.mp hw
      obtain ⟨-, hlo, hhi⟩ := (ready.mem_pages hround.live).mp hround.start
      by_contra hshared
      rw [hround.vma, Bool.not_eq_false] at hshared
      have := hprivate i hround.live hshared
      omega
    · intro w hw
      obtain ⟨i, hround⟩ := mem_work.mp hw
      obtain ⟨-, hlo, hhi⟩ := (ready.mem_pages hround.live).mp hround.start
      have habove := ready.above i hround.live
      refine hnone w.2 ?_
      unfold pageOf
      unfold pgsize at habove ⊢
      omega
  obtain ⟨s, hmaps, -⟩ := foldlM_ok (f := fun s (w : Vma × Int) => copyPage w.1 s w.2)
    (CanCopy p) hinit (fun w ws t ht => ready.canCopy_round ht)
  rw [← copyMaps_eq] at hmaps
  simp only [fork, kalloc, hcopy, hmaps]
  exact ⟨_, _, _, rfl⟩

/-! ## Sharing -/

/-- As soon as a shared mapping has a page, `fork` fails or the child gets a frame of its own for
it. -/
theorem Ready.len_of_staysShared (ready : Ready p free) (hstays : StaysShared p slot free) {i : Int}
    (hlive : p.maps.Live i) (hshared : has (p.maps.vmas i).flags mapShared = true) :
    (p.maps.vmas i).len = 0 := by
  obtain ⟨parent, child, free', hfork, hsame⟩ := hstays
  by_contra hlen
  have hpos := ready.len_mem i hlive
  have habove := ready.above i hlive
  have hbelow := ready.below i hlive
  have hcovers : (p.maps.vmas i).Covers (p.maps.vmas i).addr := ⟨Int.le_refl _, by omega⟩
  have hstart : Round p.maps (p.maps.vmas i, (p.maps.vmas i).addr) i :=
    ⟨hlive, rfl, (ready.mem_pages hlive).mpr ⟨ready.aligned i hlive, hcovers⟩⟩
  obtain ⟨⟨f, hf, hused⟩, hnone⟩ := ready.fork_shared hfork hstart hshared
  obtain ⟨⟨p', q', free₁, free₂, g, hparent, hchild, hp', hq'⟩, -⟩ :=
    hsame i hlive hshared _ hcovers
  -- the parent has the page, so its access changes nothing
  have htouch : parent.touch free' (p.maps.vmas i).addr = .ok (parent, free') := by
    unfold Proc.touch
    rw [hf]
  rw [htouch] at hparent
  cases hparent
  obtain ⟨f', hf', hfresh⟩ := Proc.touch_fresh (by unfold pgsize at habove; omega)
    (by omega) hnone hchild
  rw [hp'] at hf
  rw [hq'] at hfresh
  cases hf
  cases hfresh
  exact hused hf'

/-- Shared mappings stay shared across `fork` exactly when none of them has a page. -/
theorem stays_shared_iff (ready : Ready p free) :
    StaysShared p slot free ↔ ∀ i, p.maps.Live i → has (p.maps.vmas i).flags mapShared = true →
      (p.maps.vmas i).len = 0 := by
  constructor
  · intro hstays i hlive hshared
    exact ready.len_of_staysShared hstays hlive hshared
  · intro hprivate
    obtain ⟨parent, child, free', hfork⟩ := ready.fork_private slot hprivate
    refine ⟨parent, child, free', hfork, ?_⟩
    rintro i hlive hshared va ⟨hlo, hhi⟩
    have := hprivate i hlive hshared
    omega

/-- A process that has one mapping, of one page that it has touched: the page is in frame 0. -/
def oneMapping (flags : UInt32) : Proc where
  pgdir := ⟨fun d => d = pdx mmapBase, fun page => if page = pageOf mmapBase then some 0 else none⟩
  sz := 0
  maps := { Table.freshTable.set 0 ⟨⟨mmapBase, 4096, pteU ||| protWrite, flags, 1, 0⟩, 0, 0, 0⟩ with
    totalVmas := 1 }

/-- The frames from 1 to 80. -/
def freeFrames : List Nat := List.range' 1 80

theorem oneMapping_ready (flags : UInt32) : Ready (oneMapping flags) freeFrames := by
  have hlive : ∀ i, (oneMapping flags).maps.Live i → i = 0 := by
    rintro i ⟨h0, h1⟩
    simp only [oneMapping] at h1
    omega
  refine ⟨Int.le_refl 0, (by decide : (0 : Int) ≤ 0x60000000), fun k hk => absurd hk (Nat.not_lt_zero k),
    ?_, ?_, ?_, ?_, ?_, ?_, List.nodup_range', ?_, ?_⟩
  · intro i hi
    obtain rfl := hlive i hi
    exact ⟨0x60000, rfl⟩
  · intro i hi
    obtain rfl := hlive i hi
    exact (by decide : (0 : Int) ≤ 4096 ∧ (4096 : Int) < 2 ^ 31)
  · intro i hi
    obtain rfl := hlive i hi
    exact (by decide : (0 : Int) ≤ 0x60000000)
  · intro i hi
    obtain rfl := hlive i hi
    exact (by decide : (0x60000000 + 4096 : Int) ≤ 0x80000000)
  · intro i j hi hj hne
    exact absurd ((hlive i hi).trans (hlive j hj).symm) hne
  · intro i hi
    obtain rfl := hlive i hi
    rfl
  · intro va f hf hmem
    have hf0 : f = 0 := by
      have hpte := (Option.ite_none_right_eq_some.mp hf).2
      exact (Option.some.inj (Option.ite_none_right_eq_some.mp hpte).2).symm
    rw [hf0] at hmem
    exact absurd hmem (by decide)
  · exact (by decide : 1 + Pgdir.kvmFrames + 2 * 0 + 2 * 1 ≤ 80)

/-- The theorem at a process whose mapping is private. -/
theorem stays_shared_iff_private :
    StaysShared (oneMapping mapPrivate) Table.freshTable freeFrames :=
  (stays_shared_iff (oneMapping_ready mapPrivate)).mpr fun i hi hshared => by
    have : i = 0 := by
      obtain ⟨h0, h1⟩ := hi
      simp only [oneMapping] at h1
      omega
    subst this
    exact absurd hshared (by decide)

/-- The frames of parent and child at an address after `fork`, when the child has touched it. -/
def framesAfter (p : Proc) (free : List Nat) (va : Int) : Option (Option Nat × Option Nat) :=
  match fork p (some Table.freshTable) free with
  | .error _ => none
  | .ok (parent, child, free) =>
    match child.touch free va with
    | .error _ => none
    | .ok (child, _) => some (parent.pgdir.frameAt va, child.pgdir.frameAt va)

/-- A page of a shared file that was touched before `fork`: the parent has frame 0 and the child
frame 67. -/
theorem shared_page_splits :
    Ready (oneMapping mapShared) freeFrames ∧
      framesAfter (oneMapping mapShared) freeFrames mmapBase = some (some 0, some 67) ∧
      ¬ StaysShared (oneMapping mapShared) Table.freshTable freeFrames := by
  refine ⟨oneMapping_ready mapShared, by decide +kernel, ?_⟩
  intro hstays
  have hlen := (oneMapping_ready mapShared).len_of_staysShared hstays (i := 0)
    ⟨by decide, by decide⟩ (by decide)
  exact absurd hlen (by decide)

end Cs537.P5
