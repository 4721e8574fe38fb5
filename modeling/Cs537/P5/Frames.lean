import Cs537.P5.FailedFork

/-!
# Frames alone

`Paging` and `Fork` look at the frames of a process only. `Memory`, `Copying` and `FailedFork` have
the permissions of a page, the bytes in the frames, the frames of the page tables and the files as
well. These are models of the same functions: what the larger one does, the smaller one does with
what is left of its state. Where the kernel is lost in `fileread` there is nothing to compare,
because the smaller model leaves out what is read.
-/

namespace Cs537.P5

open Cs537.Lib

/-! ## Page tables -/

namespace PageDir

/-- Which page tables there are, and the frames of the pages. -/
def forget (d : PageDir) : Pgdir where
  table i := (d.table i).isSome
  pte p := (d.pte p).map Pte.frame

/-- What is left of the outcome of `walkpgdir`. -/
def walked : Option (PageDir × List Nat) → Except Stop (Pgdir × List Nat)
  | none => .error .failed
  | some (d, free) => .ok (d.forget, free)

/-- What is left of the outcome of `mappages`. -/
def mapped : Except Halt (Bool × PageDir × List Nat) → Except Stop (Pgdir × List Nat)
  | .error _ => .error .panic
  | .ok (false, _, _) => .error .failed
  | .ok (true, d, free) => .ok (d.forget, free)

variable {d : PageDir} {free : List Nat} {va a size : Int} {f : Nat} {perm : UInt32}

theorem frameAt_forget (d : PageDir) (va : Int) :
    d.forget.frameAt va = (d.pte (pageOf va)).map Pte.frame := by
  unfold Pgdir.frameAt
  by_cases htable : d.table (pdx va) = none
  · have hpte : d.pte (pageOf va) = none := by
      apply d.backed
      rw [Pgdir.pageOf_div]
      exact htable
    simp [forget, htable, hpte]
  · simp [forget, Option.isSome_iff_ne_none, htable]

theorem forget_addTable {i : Int} (hnone : d.table i = none) (g : Nat) :
    (d.addTable i g).forget =
      { table := Function.update d.forget.table i true
        pte := fun p => if p / 1024 = i then none else d.forget.pte p } := by
  unfold forget addTable
  congr 1
  · funext j
    by_cases hj : j = i
    · subst hj
      simp
    · simp [hj]
  · funext p
    by_cases hp : p / 1024 = i
    · have hpte : d.pte p = none := d.backed p (by rw [hp]; exact hnone)
      rw [if_pos hp, hpte, Option.map_none]
    · rw [if_neg hp]

theorem forget_setPte {p : Int} (e : Pte) (hthere : d.table (p / 1024) ≠ none) :
    (d.setPte p e).forget =
      { d.forget with pte := Function.update d.forget.pte p (some e.frame) } := by
  have hpte : (d.setPte p e).pte = Function.update d.pte p (some e) := if_neg hthere
  unfold forget
  rw [hpte]
  congr 1
  funext q
  by_cases hq : q = p
  · subst hq
    simp
  · simp [hq]

theorem walkpgdir_forget : d.forget.walkpgdir free va = walked (d.walkpgdir free va) := by
  unfold Pgdir.walkpgdir walkpgdir
  by_cases htable : d.table (pdx va) = none
  · have hforget : d.forget.table (pdx va) ≠ true := by simp [forget, htable]
    rw [if_neg hforget, htable, Option.isSome_none, if_neg Bool.false_ne_true]
    cases free with
    | nil => rfl
    | cons g free =>
      simp only [kalloc, walked, forget_addTable htable]
  · have hforget : d.forget.table (pdx va) = true := Option.isSome_iff_ne_none.mpr htable
    rw [if_pos hforget, if_pos (Option.isSome_iff_ne_none.mpr htable)]
    rfl

/-- The page table is there after `walkpgdir`. -/
theorem table_walkpgdir {d' : PageDir} {free' : List Nat}
    (h : d.walkpgdir free va = some (d', free')) : d'.table (pageOf va / 1024) ≠ none := by
  rw [Pgdir.pageOf_div]
  unfold walkpgdir at h
  by_cases htable : d.table (pdx va) = none
  · rw [htable, Option.isSome_none, if_neg Bool.false_ne_true] at h
    cases free with
    | nil => cases h
    | cons g free =>
      cases h
      simp [addTable]
  · rw [if_pos (Option.isSome_iff_ne_none.mpr htable)] at h
    cases h
    exact htable

theorem mapLoop_forget (n : Nat) :
    Pgdir.mapLoop n d.forget free a f = mapped (mapLoop n d free a f perm) := by
  induction n generalizing d free a f with
  | zero => rfl
  | succ n ih =>
    rw [Pgdir.mapLoop, mapLoop, walkpgdir_forget]
    cases hwalk : d.walkpgdir free a with
    | none => rfl
    | some r =>
      obtain ⟨d', free'⟩ := r
      have hthere := table_walkpgdir hwalk
      simp only [walked]
      by_cases hpte : d'.pte (pageOf a) = none
      · have hforget : d'.forget.pte (pageOf a) = none := by simp [forget, hpte]
        rw [hforget, hpte, Option.isSome_none, if_neg Bool.false_ne_true, Option.isSome_none,
          if_neg Bool.false_ne_true, ← ih, forget_setPte _ hthere]
      · have hforget : (d'.forget.pte (pageOf a)).isSome = true := by
          simp [forget, Option.isSome_iff_ne_none, hpte]
        rw [if_pos hforget, if_pos (Option.isSome_iff_ne_none.mpr hpte)]
        rfl

theorem mappages_forget (perm : UInt32) :
    d.forget.mappages free va size f = mapped (d.mappages free va size f perm) :=
  mapLoop_forget _

end PageDir

/-! ## `do_map` and `do_map_helper` -/

/-- An error that frames alone can show. -/
def Halt.seen : Halt → Option Stop
  | .panic => some .panic
  | .fault => none
  | .deadlock => none

namespace Machine

/-- The fields of a process of `sz` bytes that `Fork` keeps. -/
def proc (m : Machine) (sz : Int) : Proc := ⟨m.dir.forget, sz, m.maps⟩

/-- `fileread` does not panic. -/
theorem fileread_ne_panic {m : Machine} {locked : Option Nat} {f : UInt32} {addr n : Int} :
    m.fileread locked f addr n ≠ .error .panic := by
  unfold fileread
  intro h
  split at h
  · cases h
  · split at h
    · cases h
    · split at h
      · cases h
      · rename_i bs _
        rcases m.store_cases addr bs with ⟨-, bytes, hstore⟩ | ⟨-, herror⟩
        · rw [hstore] at h
          cases h
        · rw [herror] at h
          cases h

/-- An access to a page that is not present, from outside the kernel: the process is killed, or the
page is mapped. -/
theorem pgftHandler_touch {m : Machine} {va : Int} (sz : Int) (hlive : m.killed = false)
    (habsent : m.dir.pte (pageOf va) = none) :
    Mirrors (fun m' => m'.maps = (m.maps.pgftHandler va (m.dir.table (pdx va)).isSome).2)
      (fun m' => if m'.killed then .error .failed else .ok (m'.proc sz, m'.free)) Halt.seen
      (m.pgftHandler none va) ((m.proc sz).touch m.free va) := by
  have hframe : (m.proc sz).pgdir.frameAt va = none := by
    rw [proc, PageDir.frameAt_forget, habsent, Option.map_none]
  have htable : (m.proc sz).pgdir.table (pdx va) = (m.dir.table (pdx va)).isSome := rfl
  unfold pgftHandler Proc.touch
  rw [hframe, htable]
  simp only [proc]
  rcases hfault : m.maps.pgftHandler va (m.dir.table (pdx va)).isSome with ⟨fault, maps⟩
  cases fault with
  | killed => exact ⟨rfl, rfl⟩
  | doMap vma =>
    simp only [doMap]
    cases hfree : m.free with
    | nil => exact ⟨rfl, rfl⟩
    | cons mem free =>
      simp only [kalloc]
      rw [PageDir.mappages_forget (mapPerm vma)]
      rcases m.dir.mappages free (pageOf va * pgsize) pgsize mem (mapPerm vma) with
        e | ⟨_ | _, dir, rest⟩
      · intro d hd
        cases e <;> cases hd
        rfl
      · exact ⟨rfl, rfl⟩
      · rcases fillPage_cases { m with
            free := rest, bytes := m.bytes.fill mem 0, dir := dir, maps := maps } va vma with
          ⟨-, m', hfill, hkilled, hdir, hmaps⟩ | ⟨-, hfill⟩
        · obtain ⟨-, hrest, -⟩ := fillPage_same hfill
          simp only at hfill hkilled hdir hmaps hrest
          simp only [hfill, PageDir.mapped]
          refine ⟨hmaps, ?_⟩
          simp only
          rw [hkilled, hlive, if_neg Bool.false_ne_true, hdir, hrest, hmaps]
        · simp only [hfill]
          intro d hd
          cases hd

/-- `do_map_helper` returns 1 or -1. -/
theorem doMapHelper_forget (p : Machine) (size faultAddr : Int) (vma : Vma) :
    Mirrors (fun r => r.2.maps = p.maps)
      (fun r => if r.1 then .ok (r.2.dir.forget, r.2.free) else .error .failed) Halt.seen
      (p.doMapHelper size faultAddr vma)
      (P5.doMapHelper p.dir.forget p.free size faultAddr vma) := by
  unfold doMapHelper P5.doMapHelper
  cases hfree : p.free with
  | nil => exact ⟨rfl, rfl⟩
  | cons mem free =>
    simp only [kalloc]
    rw [PageDir.mappages_forget (mapPerm vma)]
    rcases p.dir.mappages free (pageOf faultAddr * pgsize) size mem (mapPerm vma) with
      e | ⟨_ | _, dir, rest⟩
    · intro d hd
      cases e <;> cases hd
      rfl
    · exact ⟨rfl, rfl⟩
    · simp only [PageDir.mapped]
      by_cases hanon : has vma.flags mapAnonymous = true
      · rw [if_pos hanon, if_pos hanon]
        exact ⟨rfl, rfl⟩
      · rw [if_neg hanon, if_neg hanon]
        cases hread : fileread { p with
            free := rest, bytes := p.bytes.fill mem 0, dir := dir } none vma.file
            (pageOf faultAddr * pgsize) (helperReadSize vma size) with
        | error e =>
          intro d hd
          cases e with
          | panic => exact absurd hread fileread_ne_panic
          | fault => cases hd
          | deadlock => cases hd
        | ok r =>
          obtain ⟨r, p'⟩ := r
          obtain ⟨hdir, hrest, hmaps⟩ := fileread_same hread
          refine ⟨hmaps, ?_⟩
          simp only
          rw [if_pos trivial, hdir, hrest]

end Machine

/-! ## `copy_maps` -/

/-- An error of `copy_maps` that frames alone can show. -/
def CopyStop.seen : CopyStop → Option Stop
  | .halt e => e.seen
  | .failed _ => some .failed

namespace Copying

variable {m : Machine} {s : Copying}

/-- The frames of the parent and of the child. -/
def forget (s : Copying) : Forking := ⟨s.parent.dir.forget, s.child.forget, s.parent.free⟩

/-- A round for one page. The tables of mappings stay as they are. -/
theorem copyPage_forget (vma : Vma) (s : Copying) (start : Int) :
    Mirrors (fun s' => s'.parent.maps = s.parent.maps ∧ s'.maps = s.maps) (fun s' => .ok s'.forget)
      CopyStop.seen (copyPage vma s start) (P5.copyPage vma s.forget start) := by
  have hframe : s.forget.parent.frameAt start = (s.parent.dir.pte (pageOf start)).map Pte.frame :=
    PageDir.frameAt_forget _ _
  unfold copyPage P5.copyPage
  rw [hframe]
  by_cases hshared : has vma.flags mapShared = true
  · rw [if_pos hshared, if_pos hshared]
    cases hpte : s.parent.dir.pte (pageOf start) with
    | some e => exact ⟨⟨rfl, rfl⟩, rfl⟩
    | none =>
      simp only [Option.map_none]
      generalize (if i32 (vma.len - vma.storedSize) < pgsize then i32 (vma.len - vma.storedSize)
        else pgsize) = size
      have hhelper := s.parent.doMapHelper_forget size start vma
      have hleft : P5.doMapHelper s.forget.parent s.forget.free size start vma =
          P5.doMapHelper s.parent.dir.forget s.parent.free size start vma := rfl
      rw [hleft]
      generalize s.parent.doMapHelper size start vma = r at hhelper ⊢
      rcases r with e | ⟨_ | _, parent⟩
      · intro d hd
        rw [hhelper d hd]
      · intro d hd
        rw [hhelper.2]
        exact congrArg Except.error (Option.some.inj hd)
      · rw [hhelper.2]
        exact ⟨⟨hhelper.1, rfl⟩, rfl⟩
  · rw [if_neg hshared, if_neg hshared]
    cases hpte : s.parent.dir.pte (pageOf start) with
    | none => exact ⟨⟨rfl, rfl⟩, rfl⟩
    | some e =>
      have hleft : s.forget.free = s.parent.free := rfl
      rw [Option.map_some, hleft]
      cases hfree : s.parent.free with
      | nil =>
        intro d hd
        exact congrArg Except.error (Option.some.inj hd)
      | cons mem free =>
        have hchild : s.forget.child = s.child.forget := rfl
        simp only [kalloc]
        rw [hchild, PageDir.mappages_forget vma.prot]
        rcases s.child.mappages free start pgsize mem vma.prot with e | ⟨_ | _, child, rest⟩
        · intro d hd
          cases e <;> cases hd
          rfl
        · intro d hd
          exact congrArg Except.error (Option.some.inj hd)
        · exact ⟨⟨rfl, rfl⟩, rfl⟩

/-- What `copy_maps` makes of an entry of the child. -/
def copiedVma (parent child : Vma) : Vma :=
  let v := copyMmapStruct child parent
  if has parent.flags mapShared then { v with refCount := 1 } else v

theorem copiedVma_again (parent child : Vma) :
    copiedVma parent (copiedVma parent child) = copiedVma parent child := by
  unfold copiedVma
  by_cases hshared : has parent.flags mapShared = true
  · simp only [if_pos hshared]
    rfl
  · simp only [if_neg hshared]
    rfl

/-- The entries of the child, of which those in `done` have been copied. -/
structure Entries (m : Machine) (maps : Table) (done : List Nat) (s : Copying) : Prop where
  parent : s.parent.maps = m.maps
  entry : ∀ j, s.maps.vmas j =
    if ∃ i ∈ done, (i : Int) = j then copiedVma (m.maps.vmas j) (maps.vmas j) else maps.vmas j

theorem Entries.copyVma {maps : Table} {done : List Nat} {t : Copying} (h : Entries m maps done s)
    (hparent : t.parent.maps = s.parent.maps) (hmaps : t.maps = s.maps) (i : Nat) :
    Entries m maps (done ++ [i]) (t.copyVma i (m.maps.vmas i)) where
  parent := hparent.trans h.parent
  entry j := by
    have hset : (t.copyVma i (m.maps.vmas i)).maps.vmas =
        Function.update s.maps.vmas i (copiedVma (m.maps.vmas i) (s.maps.vmas i)) := by
      unfold Copying.copyVma
      rw [hmaps]
      rfl
    rw [hset]
    by_cases hj : j = i
    · subst hj
      rw [Function.update_self, if_pos ⟨i, List.mem_append_right _ List.mem_cons_self, rfl⟩,
        h.entry]
      by_cases hdone : ∃ k ∈ done, (k : Int) = i
      · rw [if_pos hdone, copiedVma_again]
      · rw [if_neg hdone]
    · have hsame : (∃ k ∈ done ++ [i], (k : Int) = j) ↔ ∃ k ∈ done, (k : Int) = j := by
        constructor
        · rintro ⟨k, hk, rfl⟩
          rcases List.mem_append.mp hk with hk | hk
          · exact ⟨k, hk, rfl⟩
          · exact absurd (congrArg Nat.cast (List.mem_singleton.mp hk)) hj
        · rintro ⟨k, hk, rfl⟩
          exact ⟨k, List.mem_append_left _ hk, rfl⟩
      rw [Function.update_of_ne hj, h.entry]
      simp only [hsame]

/-- The rounds for the pages of an entry, and the entry. -/
theorem Entries.copyEntry {maps : Table} {done : List Nat} (h : Entries m maps done s) (i : Nat) :
    Mirrors (Entries m maps (done ++ [i])) (fun s' => .ok s'.forget) CopyStop.seen (s.copyEntry i)
      ((m.maps.vmas i).pages.foldlM (P5.copyPage (m.maps.vmas i)) s.forget) := by
  have hpages : Mirrors (fun t : Copying => t.parent.maps = s.parent.maps ∧ t.maps = s.maps)
      (fun t => .ok t.forget) CopyStop.seen
      ((m.maps.vmas i).pages.foldlM (copyPage (m.maps.vmas i)) s)
      ((m.maps.vmas i).pages.foldlM (P5.copyPage (m.maps.vmas i)) s.forget) := by
    apply Mirrors.foldlM
      (fun _ (t : Copying) => t.parent.maps = s.parent.maps ∧ t.maps = s.maps) ⟨rfl, rfl⟩
    rintro done start - t ⟨hparent, hmaps⟩
    have hround := copyPage_forget (m.maps.vmas i) t start
    rw [hparent, hmaps] at hround
    exact hround
  unfold Copying.copyEntry
  rw [h.parent]
  simp only
  cases hloop : (m.maps.vmas i).pages.foldlM (copyPage (m.maps.vmas i)) s with
  | error e =>
    rw [hloop] at hpages
    exact hpages
  | ok t =>
    rw [hloop] at hpages
    obtain ⟨⟨hparent, hmaps⟩, heq⟩ := hpages
    exact ⟨h.copyVma hparent hmaps i, heq⟩

end Copying

/-- The entries in use are copied once more by `fork`, after `copy_maps`. -/
theorem copyInUse_eq {m : Machine} {maps : Table} {s : Copying}
    (h : Copying.Entries m maps (List.range m.maps.totalVmas.toNat) s) :
    System.copyInUse m.maps { s.maps with totalVmas := m.maps.totalVmas } =
      copyTable m.maps maps := by
  unfold System.copyInUse copyTable
  congr 1
  funext j
  have hlive : (∃ i ∈ List.range m.maps.totalVmas.toNat, (i : Int) = j) ↔
      0 ≤ j ∧ j < m.maps.totalVmas := by
    constructor
    · rintro ⟨i, hi, rfl⟩
      have hlt := List.mem_range.mp hi
      omega
    · rintro ⟨h0, hlt⟩
      exact ⟨j.toNat, List.mem_range.mpr (by omega), by omega⟩
  have hentry := h.entry j
  simp only [hlive] at hentry
  simp only
  rw [hentry]
  by_cases hj : 0 ≤ j ∧ j < m.maps.totalVmas
  · rw [if_pos hj, if_pos hj]
    unfold inherit
    by_cases huse : (m.maps.vmas j).inUse = 0
    · rw [if_neg (fun hall => hall.2.2 huse), if_neg (not_not.mpr huse)]
      rfl
    · rw [if_pos ⟨hj.1, hj.2, huse⟩, if_pos huse]
  · rw [if_neg hj, if_neg hj, if_neg (fun hall => hj ⟨hall.1, hall.2.1⟩)]

/-- `copy_maps`, and the loop of `fork` behind it. -/
theorem copyMaps_forget (m : Machine) (child : PageDir) (maps : Table) :
    Mirrors (fun s => s.parent.maps = m.maps ∧
        System.copyInUse s.parent.maps s.maps = copyTable m.maps maps)
      (fun s => .ok s.forget) CopyStop.seen (m.copyMaps child maps)
      (copyMaps m.maps ⟨m.dir.forget, child.forget, m.free⟩) := by
  have hloop : Mirrors (Copying.Entries m maps (List.range m.maps.totalVmas.toNat))
      (fun s => .ok s.forget) CopyStop.seen
      ((List.range m.maps.totalVmas.toNat).foldlM Copying.copyEntry ⟨m, child, maps⟩)
      ((List.range m.maps.totalVmas.toNat).foldlM
        (fun s (i : Nat) => (m.maps.vmas i).pages.foldlM (P5.copyPage (m.maps.vmas i)) s)
        (Copying.forget ⟨m, child, maps⟩)) := by
    apply Mirrors.foldlM (Copying.Entries m maps) ⟨rfl, fun j => by simp⟩
    intro done i _ t ht
    exact ht.copyEntry i
  unfold Machine.copyMaps copyMaps
  cases hcopy : (List.range m.maps.totalVmas.toNat).foldlM Copying.copyEntry ⟨m, child, maps⟩ with
  | error e =>
    rw [hcopy] at hloop
    exact hloop
  | ok s =>
    rw [hcopy] at hloop
    obtain ⟨hentries, heq⟩ := hloop
    refine ⟨⟨hentries.parent, ?_⟩, heq⟩
    rw [hentries.parent]
    exact copyInUse_eq hentries

/-! ## `copyuvm` -/

/-- An error of the loop of `copyuvm` that frames alone can show. -/
def UvmStop.seen : UvmStop → Option Stop
  | .halt e => e.seen
  | .bad _ _ => some .failed

namespace Machine

variable {m : Machine}

/-- `setupkvm` makes a page directory without pages, or there are too few frames. -/
theorem setupkvm_forget (m : Machine) :
    (∃ m', m.setupkvm = (none, m') ∧ Pgdir.setupkvm m.free = .error .failed) ∨
      ∃ vm m', m.setupkvm = (some vm, m') ∧ m'.dir = m.dir ∧ m'.maps = m.maps ∧
        Pgdir.setupkvm m.free = .ok (vm.user.forget, m'.free) := by
  unfold setupkvm Pgdir.setupkvm
  cases hfree : m.free with
  | nil => exact .inl ⟨_, rfl, rfl⟩
  | cons pgdir free =>
    -- the page directory, and then the page tables
    have hkvm : Pgdir.kvmFrames = kernelTables + 1 := rfl
    simp only
    rw [hkvm, List.length_cons, List.drop_succ_cons]
    by_cases hfew : free.length < kernelTables
    · rw [if_pos hfew, if_pos (Nat.succ_lt_succ hfew)]
      exact .inl ⟨_, rfl, rfl⟩
    · rw [if_neg hfew, if_neg (mt Nat.lt_of_succ_lt_succ hfew)]
      exact .inr ⟨_, _, rfl, rfl, rfl, rfl⟩

/-- The second half of a round. -/
theorem copyFrame_forget (s : Machine × Vm) (k : Nat) (e : Pte) (mem : Nat) (free : List Nat) :
    Mirrors (fun s' => s'.1.dir = s.1.dir ∧ s'.1.maps = s.1.maps)
      (fun s' => .ok (s'.2.user.forget, s'.1.free)) UvmStop.seen (copyFrame s k e mem free)
      (s.2.user.forget.mappages free (pgsize * k) pgsize mem) := by
  rw [copyFrame, PageDir.mappages_forget e.perm]
  generalize s.2.user.mappages free (pgsize * k) pgsize mem e.perm = r
  rcases r with e | ⟨_ | _, user, rest⟩
  · intro d hd
    cases e <;> cases hd
    rfl
  · intro d hd
    exact congrArg Except.error (Option.some.inj hd)
  · exact ⟨⟨rfl, rfl⟩, rfl⟩

/-- A round of the loop. -/
theorem copyuvmPage_forget (s : Machine × Vm) (k : Nat) :
    Mirrors (fun s' => s'.1.dir = s.1.dir ∧ s'.1.maps = s.1.maps)
      (fun s' => .ok (s'.2.user.forget, s'.1.free)) UvmStop.seen (copyuvmPage s k)
      (Pgdir.copyuvmPage s.1.dir.forget (s.2.user.forget, s.1.free) k) := by
  unfold copyuvmPage Pgdir.copyuvmPage
  rw [PageDir.frameAt_forget, Pgdir.pageOf_mul]
  cases hpte : s.1.dir.pte k with
  | none =>
    intro d hd
    exact congrArg Except.error (Option.some.inj hd)
  | some e =>
    cases hfree : s.1.free with
    | nil =>
      intro d hd
      exact congrArg Except.error (Option.some.inj hd)
    | cons mem free => exact copyFrame_forget s k e mem free

/-- `copyuvm` returns a page directory or 0. -/
theorem copyuvm_forget (m : Machine) (sz : Int) :
    Mirrors (fun r => r.1.isSome = true → r.2.dir = m.dir ∧ r.2.maps = m.maps)
      (fun r => (r.1.map fun vm => .ok (vm.user.forget, r.2.free)).getD (.error .failed)) Halt.seen
      (m.copyuvm sz) (m.dir.forget.copyuvm sz m.free) := by
  unfold copyuvm Pgdir.copyuvm
  rcases m.setupkvm_forget with ⟨m₁, hkvm, hleft⟩ | ⟨vm, m₁, hkvm, hdir, hmaps, hleft⟩
  · rw [hkvm, hleft]
    exact ⟨fun hnone => absurd hnone Bool.false_ne_true, rfl⟩
  · rw [hkvm, hleft]
    have hloop : Mirrors (fun s : Machine × Vm => s.1.dir = m.dir ∧ s.1.maps = m.maps)
        (fun s => .ok (s.2.user.forget, s.1.free)) UvmStop.seen
        ((List.range (Pgdir.userPages sz)).foldlM copyuvmPage (m₁, vm))
        ((List.range (Pgdir.userPages sz)).foldlM (Pgdir.copyuvmPage m.dir.forget)
          (vm.user.forget, m₁.free)) := by
      apply Mirrors.foldlM
        (fun _ (s : Machine × Vm) => s.1.dir = m.dir ∧ s.1.maps = m.maps) ⟨hdir, hmaps⟩
      rintro done k - t ⟨hdir', hmaps'⟩
      have hround := copyuvmPage_forget t k
      rw [hdir', hmaps'] at hround
      exact hround
    simp only
    generalize (List.range (Pgdir.userPages sz)).foldlM copyuvmPage (m₁, vm) = r at hloop ⊢
    rcases r with (e | ⟨m₂, vm₂⟩) | ⟨m₂, vm₂⟩
    · intro d hd
      rw [hloop d hd]
    · rw [hloop .failed rfl]
      exact ⟨fun hnone => absurd hnone Bool.false_ne_true, rfl⟩
    · rw [hloop.2]
      exact ⟨fun _ => hloop.1, rfl⟩

end Machine

/-! ## `fork` -/

/-- The process in a slot that has a page directory. -/
def Slot.proc (np : Slot) : Option Proc :=
  np.pgdir.map fun vm => ⟨vm.user.forget, np.sz, np.maps⟩

namespace System

/-- The process that runs. -/
def parent (k : System) : Proc := k.curproc.proc k.sz

/-- The first slot that is `UNUSED`. -/
def unusedSlot (k : System) : Option (Fin 64) :=
  (List.finRange 64).find? fun i => (k.slots i).state = .unused

/-- How the two models of `fork` end: with the same parent, child and free list, or both fail, or
both panic. -/
inductive Forked (k : System) :
    Except Halt (Option Int × System) → Except Stop (Proc × Proc × List Nat) → Prop
  | child {i : Fin 64} {pid : Int} {k' : System} {np : Proc} (slot : k.unusedSlot = some i)
      (proc : (k'.slots i).proc = some np) :
      Forked k (.ok (some pid, k')) (.ok (k'.parent, np, k'.curproc.free))
  | failed {k' : System} : Forked k (.ok (none, k')) (.error .failed)
  | panic : Forked k (.error .panic) (.error .panic)
  | lost {e : Halt} {r : Except Stop (Proc × Proc × List Nat)} (unseen : e.seen = none) :
      Forked k (.error e) r

theorem Forked.error {k : System} {e : Halt} {r : Except Stop (Proc × Proc × List Nat)}
    (h : ∀ d, e.seen = some d → r = .error d) : Forked k (.error e) r := by
  cases e with
  | panic =>
    rw [h .panic rfl]
    exact .panic
  | fault => exact .lost rfl
  | deadlock => exact .lost rfl

variable {k k₁ : System} {i : Fin 64}

theorem Forked.of_child {pid : Int} {k' : System} {r : Except Stop (Proc × Proc × List Nat)}
    (np : Proc) (slot : k.unusedSlot = some i)
    (proc : (k'.slots i).proc = some np) (hr : r = .ok (k'.parent, np, k'.curproc.free)) :
    Forked k (.ok (some pid, k')) r := by
  rw [hr]
  exact .child slot proc

theorem allocproc_none (h : k.allocproc = (none, k₁)) :
    k.unusedSlot = none ∨ k.curproc.free = [] := by
  unfold allocproc at h
  split at h
  · rename_i hfind
    exact .inl hfind
  · simp only at h
    split at h
    · rename_i hfree
      exact .inr hfree
    · cases h

theorem allocproc_slot (h : k.allocproc = (some i, k₁)) :
    k.unusedSlot = some i ∧ (k₁.slots i).maps = (k.slots i).maps.allocproc := by
  unfold allocproc at h
  split at h
  · cases h
  · rename_i hfind
    simp only at h
    split at h
    · cases h
    · cases h
      refine ⟨hfind, ?_⟩
      simp only [setSlot, Function.update_self]

/-- `fork` of the larger model is that of the smaller one. -/
theorem fork_forget (k : System) :
    Forked k k.fork
      (P5.fork k.parent (k.unusedSlot.map fun i => (k.slots i).maps) k.curproc.free) := by
  unfold fork
  rcases halloc : k.allocproc with ⟨_ | i, k₁⟩
  · have hleft : P5.fork k.parent (k.unusedSlot.map fun i => (k.slots i).maps) k.curproc.free =
        .error .failed := by
      rcases allocproc_none halloc with hnone | hempty
      · rw [hnone]
        rfl
      · rw [hempty]
        cases k.unusedSlot <;> rfl
    rw [hleft]
    exact .failed
  · obtain ⟨kstack, hallocated⟩ := allocproc_allocated halloc
    obtain ⟨hslot, hmaps⟩ := allocproc_slot halloc
    have huvm := k₁.curproc.copyuvm_forget k₁.sz
    have hparent : k.parent = k₁.parent := by
      unfold parent Machine.proc
      rw [hallocated.dir, hallocated.maps, allocproc_sz halloc]
    rw [hslot, hallocated.free, hparent]
    unfold P5.fork
    simp only [Option.map_some, kalloc]
    have hleft : k₁.parent.pgdir.copyuvm k₁.parent.sz k₁.curproc.free =
        k₁.curproc.dir.forget.copyuvm k₁.sz k₁.curproc.free := rfl
    rw [hleft]
    generalize k₁.curproc.copyuvm k₁.sz = r at huvm ⊢
    rcases r with e | ⟨_ | vm, m⟩
    · apply Forked.error
      intro d hd
      rw [huvm d hd]
    · rw [huvm.2]
      exact .failed
    · obtain ⟨hsame, heq⟩ := huvm
      obtain ⟨hdir, hmaps'⟩ := hsame rfl
      rw [heq]
      simp only [Option.map_some, Option.getD_some]
      have hcopy := copyMaps_forget m vm.user (k₁.slots i).maps
      have hsmall : (⟨k₁.parent.pgdir, vm.user.forget, m.free⟩ : Forking) =
          ⟨m.dir.forget, vm.user.forget, m.free⟩ := by
        rw [hdir]
        rfl
      have htable : k₁.parent.maps = m.maps := hmaps'.symm
      rw [hsmall, htable]
      generalize m.copyMaps vm.user (k₁.slots i).maps = r at hcopy ⊢
      rcases r with (e | s) | s
      · apply Forked.error
        intro d hd
        rw [hcopy d hd]
      · rw [hcopy .failed rfl]
        exact .failed
      · obtain ⟨⟨hmaps₁, htables⟩, heq₁⟩ := hcopy
        rw [heq₁]
        simp only
        refine Forked.of_child ⟨s.child.forget, k₁.sz, copyTable m.maps (k₁.slots i).maps⟩
          hslot ?_ ?_
        · simp only [setSlot, Function.update_self, Slot.proc, Option.map_some, htables]
        · rw [hmaps]
          have hrunning : (⟨s.parent.dir.forget, k₁.sz, m.maps⟩ : Proc) =
              s.parent.proc k₁.sz := by
            unfold Machine.proc
            rw [hmaps₁]
          exact congrArg (fun p => Except.ok (p, _, _)) hrunning

end System

end Cs537.P5
