import Cs537.P5.Freeing

/-!
# Copying mappings to a child

`copy_maps` goes through the live entries of the parent and through the pages of each. A page of a
private mapping that the parent has is copied to a new frame, and mapped in the child with the
protection of the entry; what the parent may do with its own page is not looked at. For a page of a
shared mapping the parent gets a frame, and the child gets nothing. `copyMaps_private` says what the
child has after private mappings were copied.
-/

namespace Cs537.P5

open Cs537.Lib

/-! ## `copy_maps` -/

/-- What `copy_maps` works on: the parent, which runs, and the page table and the entries of the
child. -/
structure Copying where
  parent : Machine
  child : PageDir
  maps : Table

/-- Why `copy_maps` does not return 0: the kernel does not come back, or it returns -1. -/
inductive CopyStop where
  | halt (e : Halt)
  | failed (s : Copying)

/-- The number of bytes that `do_map_helper` asks for (`sys_mmap.c:71-75`). -/
def helperReadSize (vma : Vma) (size : Int) : Int :=
  let storedSize := i32 (vma.storedSize + size)
  if i32 (vma.len - storedSize) < pgsize then i32 (vma.len - storedSize) else pgsize

/-- `do_map_helper` (`sys_mmap.c:44-82`): whether it returns 1, and the process. -/
def Machine.doMapHelper (p : Machine) (size faultAddr : Int) (vma : Vma) :
    Except Halt (Bool × Machine) :=
  match p.free with
  | [] => .ok (false, { p with killed := true })
  | mem :: free =>
    let bytes := p.bytes.fill mem 0
    match p.dir.mappages free (pageOf faultAddr * pgsize) size mem (Machine.mapPerm vma) with
    | .error e => .error e
    | .ok (false, dir, free) =>
      .ok (false, { p with free := free, bytes := bytes, dir := dir, killed := true })
    | .ok (true, dir, free) =>
      let p := { p with free := free, bytes := bytes, dir := dir }
      if has vma.flags mapAnonymous then .ok (false, p)
      else
        match p.fileread none vma.file (pageOf faultAddr * pgsize) (helperReadSize vma size) with
        | .error e => .error e
        | .ok (_, p) => .ok (true, p)

namespace Copying

/-- The body of the inner loop of `copy_maps` (`sys_mmap.c:93-135`), for the page at `start`. -/
def copyPage (vma : Vma) (s : Copying) (start : Int) : Except CopyStop Copying :=
  if has vma.flags mapShared then
    match s.parent.dir.pte (pageOf start) with
    | some _ => .ok s
    | none =>
      let totalMmapSize := i32 (vma.len - vma.storedSize)
      let size := if totalMmapSize < pgsize then totalMmapSize else pgsize
      match s.parent.doMapHelper size start vma with
      | .error e => .error (.halt e)
      | .ok (false, parent) => .error (.failed { s with parent := parent })
      | .ok (true, parent) => .ok { s with parent := parent }
  else
    match s.parent.dir.pte (pageOf start) with
    | none => .ok s
    | some e =>
      match s.parent.free with
      | [] => .error (.failed s)
      | mem :: free =>
        -- `memmove(mem, parentmem, PGSIZE)`
        let bytes := Function.update s.parent.bytes mem (s.parent.bytes e.frame)
        match s.child.mappages free start pgsize mem vma.prot with
        | .error e => .error (.halt e)
        | .ok (false, child, free) =>
          .error (.failed
            { s with parent := { s.parent with free := free, bytes := bytes }, child := child })
        | .ok (true, child, free) =>
          .ok { s with parent := { s.parent with free := free, bytes := bytes }, child := child }

/-- The entry of the child (`sys_mmap.c:137-140`). -/
def copyVma (s : Copying) (i : Nat) (vma : Vma) : Copying :=
  let v := copyMmapStruct (s.maps.vmas i) vma
  { s with maps := s.maps.set i (if has vma.flags mapShared then { v with refCount := 1 } else v) }

/-- The body of the outer loop (`sys_mmap.c:87-141`). -/
def copyEntry (s : Copying) (i : Nat) : Except CopyStop Copying :=
  let vma := s.parent.maps.vmas i
  match vma.pages.foldlM (copyPage vma) s with
  | .error e => .error e
  | .ok s => .ok (s.copyVma i vma)

end Copying

/-- `copy_maps` (`sys_mmap.c:84-145`). -/
def Machine.copyMaps (parent : Machine) (child : PageDir) (maps : Table) :
    Except CopyStop Copying :=
  match (List.range parent.maps.totalVmas.toNat).foldlM Copying.copyEntry
    ⟨parent, child, maps⟩ with
  | .error e => .error e
  | .ok s => .ok { s with maps := { s.maps with totalVmas := parent.maps.totalVmas } }

/-! ## A page of a private mapping -/

namespace PageDir

variable {d : PageDir} {va : Int}

/-- A page that is present cannot be mapped again. -/
theorem mapLoop_panic (free : List Nat) (f : Nat) (perm : UInt32)
    (hpresent : d.pte (pageOf va) ≠ none) : mapLoop 1 d free va f perm = .error .panic := by
  have hthere : d.table (pdx va) ≠ none := by
    intro hnone
    rw [← Pgdir.pageOf_div] at hnone
    exact hpresent (d.backed _ hnone)
  simp only [mapLoop, walkpgdir]
  rw [if_pos (Option.isSome_iff_ne_none.mpr hthere)]
  simp only
  rw [if_pos (Option.isSome_iff_ne_none.mpr hpresent)]

/-- A frame is used, for a page or for a page table. -/
def Uses (d : PageDir) (f : Nat) : Prop :=
  (∃ p e, d.pte p = some e ∧ e.frame = f) ∨ ∃ i, d.table i = some f

end PageDir

/-- The addresses of the pages of a mapping in the user part. -/
theorem Vma.mem_pages_iff_hasPage {v : Vma} (haligned : pgsize ∣ v.addr) (h0 : 0 ≤ v.addr)
    (hlen : 0 ≤ v.len) (hend : v.addr + v.len ≤ kernBase) {start : Int} :
    start ∈ v.pages ↔ ∃ p, v.HasPage p ∧ start = p * pgsize := by
  rw [Vma.mem_pages haligned h0 hlen hend]
  constructor
  · rintro ⟨⟨p, rfl⟩, hcovers⟩
    rw [Int.mul_comm] at hcovers
    exact ⟨p, hcovers, Int.mul_comm _ _⟩
  · rintro ⟨p, hp, rfl⟩
    exact ⟨Int.dvd_mul_left _ _, hp⟩

namespace Copying

variable {s s' : Copying} {vma : Vma} {p : Int}

/-- What a round for a page of a private mapping does. -/
inductive PrivateRound (vma : Vma) (s : Copying) (p : Int) : Except CopyStop Copying → Prop
  | skipped (absent : s.parent.dir.pte p = none) : PrivateRound vma s p (.ok s)
  | noFrame (e : Pte) (there : s.parent.dir.pte p = some e) (empty : s.parent.free = []) :
      PrivateRound vma s p (.error (.failed s))
  | panicked (e : Pte) (there : s.parent.dir.pte p = some e) (twice : s.child.pte p ≠ none) :
      PrivateRound vma s p (.error (.halt .panic))
  | noTable (e : Pte) (mem : Nat) (there : s.parent.dir.pte p = some e)
      (taken : s.parent.free = [mem]) :
      PrivateRound vma s p (.error (.failed { s with parent := { s.parent with
        free := [], bytes := Function.update s.parent.bytes mem (s.parent.bytes e.frame) } }))
  | copied (e : Pte) (mem : Nat) (rest free : List Nat) (child : PageDir)
      (there : s.parent.dir.pte p = some e) (taken : s.parent.free = mem :: rest)
      (suffix : free <:+ rest) (absent : s.child.pte p = none)
      (pte : child.pte = Function.update s.child.pte p (some ⟨mem, vma.prot⟩)) :
      PrivateRound vma s p (.ok { s with
        parent := { s.parent with
          free := free, bytes := Function.update s.parent.bytes mem (s.parent.bytes e.frame) }
        child := child })

theorem copyPage_private (hprivate : has vma.flags mapShared = false) (h0 : 0 ≤ p)
    (hhi : p * pgsize + pgsize ≤ 2 ^ 32) :
    PrivateRound vma s p (copyPage vma s (p * pgsize)) := by
  have hpage : pageOf (p * pgsize) = p := by
    unfold pageOf pgsize
    omega
  unfold copyPage
  rw [hprivate, if_neg Bool.false_ne_true, hpage]
  cases hpte : s.parent.dir.pte p with
  | none => exact .skipped hpte
  | some e =>
    cases hfree : s.parent.free with
    | nil => exact .noFrame e hpte hfree
    | cons mem rest =>
      have hmap : s.child.mappages rest (p * pgsize) pgsize mem vma.prot =
          PageDir.mapLoop 1 s.child rest (p * pgsize) mem vma.prot :=
        PageDir.mappages_eq rest mem vma.prot (Int.dvd_mul_left _ _) (by unfold pgsize; omega) hhi
          (by decide) (Int.le_refl _)
      simp only [hmap]
      by_cases habsent : s.child.pte p = none
      · have hone := PageDir.mapLoop_one rest mem vma.prot
          (show s.child.pte (pageOf (p * pgsize)) = none by rw [hpage]; exact habsent)
        cases hone with
        | noTable missing empty eq =>
          rw [eq]
          rw [empty] at hfree
          exact .noTable e mem hpte hfree
        | mapped d' there table pte eq =>
          rw [eq]
          rw [hpage] at pte
          exact .copied e mem rest rest d' hpte hfree (List.suffix_refl _) habsent pte
        | newTable d' g rest' missing taken table pte eq =>
          rw [eq]
          rw [hpage] at pte
          exact .copied e mem rest rest' d' hpte hfree (by rw [taken]; exact List.suffix_cons _ _)
            habsent pte
      · rw [PageDir.mapLoop_panic rest mem vma.prot (by rw [hpage]; exact habsent)]
        exact .panicked e hpte habsent

/-! ## Private mappings -/

variable {m : Machine} {child : PageDir} {maps : Table}

/-- A parent whose live mappings are private, not empty, page-aligned, in the user part and without
a page in common, and none of whose frames is free. -/
structure Ready (m : Machine) : Prop where
  disjoint : m.maps.PageDisjoint
  len_pos : ∀ i, m.maps.Live i → 0 < (m.maps.vmas i).len
  isPrivate : ∀ i, m.maps.Live i → has (m.maps.vmas i).flags mapShared = false
  prot : ∀ i, m.maps.Live i → (m.maps.vmas i).prot &&& 7 = (m.maps.vmas i).prot
  nodup : m.free.Nodup
  unused : ∀ f, m.dir.Uses f → f ∉ m.free

/-- What copying private mappings leaves alone. -/
structure Keeps (m : Machine) (child : PageDir) (s : Copying) : Prop where
  dir : s.parent.dir = m.dir
  maps : s.parent.maps = m.maps
  killed : s.parent.killed = m.killed
  file : s.parent.file = m.file
  data : s.parent.data = m.data
  free : s.parent.free <:+ m.free
  bytes : ∀ f, f ∉ m.free → s.parent.bytes f = m.bytes f
  absent : ∀ p, m.dir.pte p = none → s.child.pte p = child.pte p

/-- A page of the parent has a copy in the child. -/
def HasCopy (m : Machine) (v : Vma) (p : Int) (s : Copying) : Prop :=
  ∀ e, m.dir.pte p = some e → ∃ f ∈ m.free, f ∉ s.parent.free ∧
    s.child.pte p = some ⟨f, v.prot⟩ ∧ s.parent.bytes f = m.bytes e.frame

/-- The rounds that go through, and what they leave alone. -/
theorem Ready.round (ready : Ready m) {v : Vma} (hkeeps : Keeps m child s)
    (hround : PrivateRound v s p (.ok s')) :
    Keeps m child s' ∧ HasCopy m v p s' ∧ s'.maps = s.maps ∧
      ∀ q w, HasCopy m w q s → HasCopy m w q s' := by
  obtain ⟨hdir, hmaps, hkilled, hfile, hdata, hfree, hbytes, habsent⟩ := hkeeps
  cases hround with
  | skipped absent =>
    refine ⟨⟨hdir, hmaps, hkilled, hfile, hdata, hfree, hbytes, habsent⟩, ?_, rfl,
      fun _ _ h => h⟩
    intro e he
    rw [hdir, he] at absent
    cases absent
  | copied e mem rest free child' there taken suffix fresh pte =>
    rw [hdir] at there
    have hnodup := ready.nodup.sublist hfree.sublist
    rw [taken, List.nodup_cons] at hnodup
    have hmem : mem ∈ m.free := hfree.subset (by rw [taken]; exact List.mem_cons_self)
    have hgone : mem ∉ free := fun h => hnodup.1 (suffix.subset h)
    have hused : e.frame ∉ m.free := ready.unused _ (.inl ⟨p, e, there, rfl⟩)
    have hsub : free <:+ s.parent.free := by
      rw [taken]
      exact suffix.trans (List.suffix_cons _ _)
    have hother {f : Nat} (hf : f ≠ mem) :
        Function.update s.parent.bytes mem (s.parent.bytes e.frame) f = s.parent.bytes f :=
      Function.update_of_ne hf _ _
    refine ⟨⟨hdir, hmaps, hkilled, hfile, hdata, hsub.trans hfree, ?_, ?_⟩, ?_, rfl, ?_⟩
    · intro f hf
      rw [← hbytes f hf]
      exact hother fun h => hf (h ▸ hmem)
    · intro q hq
      rw [← habsent q hq]
      simp only [pte]
      refine Function.update_of_ne ?_ _ _
      rintro rfl
      rw [hq] at there
      cases there
    · intro e' he'
      cases there.symm.trans he'
      refine ⟨mem, hmem, hgone, ?_, ?_⟩
      · simp only [pte]
        exact Function.update_self _ _ _
      · rw [← hbytes e.frame hused]
        exact Function.update_self _ _ _
    · intro q w hcopy e' he'
      obtain ⟨f, hf, hnot, hpte, hsame⟩ := hcopy e' he'
      have hfm : f ≠ mem := by
        rintro rfl
        exact hnot (by rw [taken]; exact List.mem_cons_self)
      refine ⟨f, hf, fun h => hnot (hsub.subset h), ?_, ?_⟩
      · simp only [pte]
        rw [Function.update_of_ne]
        · exact hpte
        · rintro rfl
          rw [fresh] at hpte
          cases hpte
      · rw [← hsame]
        exact hother hfm

/-- The pages of entry `i`. -/
theorem Ready.mem_pages (ready : Ready m) {i : Int} (hi : m.maps.Live i) {start : Int} :
    start ∈ (m.maps.vmas i).pages ↔ ∃ p, (m.maps.vmas i).HasPage p ∧ start = p * pgsize :=
  Vma.mem_pages_iff_hasPage (ready.disjoint.aligned i hi) (ready.disjoint.addr_nonneg i hi)
    (Int.le_of_lt (ready.len_pos i hi)) (ready.disjoint.end_le i hi)

/-- A round for a page of entry `i`. -/
theorem Ready.privateRound (ready : Ready m) {i : Int} (hi : m.maps.Live i)
    (hp : (m.maps.vmas i).HasPage p) :
    PrivateRound (m.maps.vmas i) s p (copyPage (m.maps.vmas i) s (p * pgsize)) := by
  have hk : kernBase = 0x80000000 := rfl
  have h0 := ready.disjoint.addr_nonneg i hi
  have hend := ready.disjoint.end_le i hi
  obtain ⟨hlo, hhi⟩ := hp
  refine copyPage_private (ready.isPrivate i hi) ?_ ?_
  all_goals
    unfold pgsize at *
    omega

/-- What the copy of the first entries has done. -/
structure CopiedEntries (m : Machine) (child : PageDir) (done : List Nat) (s : Copying) : Prop where
  keeps : Keeps m child s
  copies : ∀ i ∈ done, ∀ p, (m.maps.vmas i).HasPage p → HasCopy m (m.maps.vmas i) p s
  areas : ∀ i ∈ done, (s.maps.vmas i).toArea = (m.maps.vmas i).toArea

theorem Ready.copyEntry (ready : Ready m) {done : List Nat} {i : Nat} (hi : m.maps.Live i)
    (h : CopiedEntries m child done s) (hok : s.copyEntry i = .ok s') :
    CopiedEntries m child (done ++ [i]) s' := by
  unfold Copying.copyEntry at hok
  rw [h.keeps.maps] at hok
  simp only at hok
  cases hpages : (m.maps.vmas i).pages.foldlM (copyPage (m.maps.vmas i)) s with
  | error e =>
    rw [hpages] at hok
    cases hok
  | ok t =>
    rw [hpages] at hok
    cases hok
    -- the pages of the entry, one after the other
    have hinner := foldlM_prefix (fun starts t => Keeps m child t ∧ t.maps = s.maps ∧
        (∀ start ∈ starts, HasCopy m (m.maps.vmas i) (pageOf start) t) ∧
        ∀ q w, HasCopy m w q s → HasCopy m w q t) hpages
      ⟨h.keeps, rfl, fun start hstart => absurd hstart List.not_mem_nil, fun _ _ hq => hq⟩ (by
        rintro starts start hstart t t' ⟨hkeeps, hmaps, hcopies, hold⟩ hround
        obtain ⟨p, hp, rfl⟩ := (ready.mem_pages hi).mp hstart
        have hcase := ready.privateRound (s := t) hi hp
        rw [hround] at hcase
        obtain ⟨hkeeps', hcopy, hmaps', hrest⟩ := ready.round hkeeps hcase
        have hpage : pageOf (p * pgsize) = p := by
          unfold pageOf pgsize
          omega
        refine ⟨hkeeps', hmaps'.trans hmaps, ?_, fun q w hq => hrest q w (hold q w hq)⟩
        intro start hstart
        rcases List.mem_append.mp hstart with hstart | hstart
        · exact hrest _ _ (hcopies start hstart)
        · rw [List.mem_singleton.mp hstart, hpage]
          exact hcopy)
    obtain ⟨⟨hdir, hmaps, hkilled, hfile, hdata, hfree, hbytes, habsent⟩, hsame, hcopies, hold⟩ :=
      hinner
    refine ⟨⟨hdir, hmaps, hkilled, hfile, hdata, hfree, hbytes, habsent⟩, ?_, ?_⟩
    · intro j hj p hp
      rcases List.mem_append.mp hj with hj | hj
      · exact hold p _ (h.copies j hj p hp)
      · rw [List.mem_singleton.mp hj] at hp ⊢
        have hcopy := hcopies (p * pgsize) ((ready.mem_pages hi).mpr ⟨p, hp, rfl⟩)
        rwa [show pageOf (p * pgsize) = p by unfold pageOf pgsize; omega] at hcopy
    · intro j hj
      have hnot : ¬ has (m.maps.vmas i).flags mapShared = true := by
        rw [ready.isPrivate i hi]
        exact Bool.false_ne_true
      simp only [copyVma, Table.set, if_neg hnot]
      by_cases hji : (j : Int) = i
      · rw [hji, Function.update_self]
        rfl
      · rw [Function.update_of_ne hji, hsame]
        refine h.areas j ?_
        rcases List.mem_append.mp hj with hj | hj
        · exact hj
        · exact absurd (congrArg Nat.cast (List.mem_singleton.mp hj)) hji

/-- What the child has after its parent's private mappings were copied, and that the parent is as it
was: a page of a mapping is there if and only if the parent has it, with the same contents, in a
frame that the parent does not use, and it can be written to if and only if the mapping may be. -/
structure CopiedTo (m : Machine) (s : Copying) : Prop where
  absent : ∀ i, m.maps.Live i → ∀ p, (m.maps.vmas i).HasPage p → m.dir.pte p = none →
    s.child.pte p = none
  present : ∀ i, m.maps.Live i → ∀ p, (m.maps.vmas i).HasPage p → ∀ e, m.dir.pte p = some e →
    ∃ e', s.child.pte p = some e' ∧ s.parent.bytes e'.frame = m.bytes e.frame ∧
      has e'.perm pteW = has (m.maps.vmas i).prot protWrite ∧ ¬ m.dir.Uses e'.frame
  total : s.maps.totalVmas = m.maps.totalVmas
  areas : ∀ i, m.maps.Live i → (s.maps.vmas i).toArea = (m.maps.vmas i).toArea
  dir : s.parent.dir = m.dir
  maps : s.parent.maps = m.maps
  killed : s.parent.killed = m.killed
  file : s.parent.file = m.file
  data : s.parent.data = m.data
  bytes : ∀ f, m.dir.Uses f → s.parent.bytes f = m.bytes f

/-- `copy_maps` copies private mappings. -/
theorem copyMaps_private (ready : Ready m)
    (hempty : ∀ i, m.maps.Live i → ∀ p, (m.maps.vmas i).HasPage p → child.pte p = none)
    (hok : m.copyMaps child maps = .ok s) : CopiedTo m s := by
  unfold Machine.copyMaps at hok
  cases hloop : (List.range m.maps.totalVmas.toNat).foldlM Copying.copyEntry ⟨m, child, maps⟩ with
  | error e =>
    rw [hloop] at hok
    cases hok
  | ok t =>
    rw [hloop] at hok
    cases hok
    have hlive {i : Int} (hi : m.maps.Live i) :
        ∃ k : Nat, i = k ∧ k ∈ List.range m.maps.totalVmas.toNat := by
      obtain ⟨h0, hlt⟩ := hi
      exact ⟨i.toNat, by omega, List.mem_range.mpr (by omega)⟩
    have hall := foldlM_prefix (CopiedEntries m child) hloop
      ⟨⟨rfl, rfl, rfl, rfl, rfl, List.suffix_refl _, fun _ _ => rfl, fun _ _ => rfl⟩,
        fun i hi => absurd hi List.not_mem_nil, fun i hi => absurd hi List.not_mem_nil⟩
      (fun done i hi t t' h hentry => ready.copyEntry
        ⟨Int.natCast_nonneg i, by have := List.mem_range.mp hi; omega⟩ h hentry)
    obtain ⟨hdir, hmaps, hkilled, hfile, hdata, hfree, hbytes, habsent⟩ := hall.keeps
    refine ⟨?_, ?_, rfl, ?_, hdir, hmaps, hkilled, hfile, hdata, ?_⟩
    · intro i hi p hp hnone
      exact (habsent p hnone).trans (hempty i hi p hp)
    · intro i hi p hp e he
      obtain ⟨k, rfl, hk⟩ := hlive hi
      obtain ⟨f, hf, -, hpte, hsame⟩ := hall.copies k hk p hp e he
      exact ⟨⟨f, (m.maps.vmas k).prot⟩, hpte, hsame, rfl, fun huses => ready.unused f huses hf⟩
    · intro i hi
      obtain ⟨k, rfl, hk⟩ := hlive hi
      exact hall.areas k hk
    · intro f huses
      exact hbytes f (ready.unused f huses)

/-- A process that has mapped two pages, one behind the other, of which only the first may be
written. The second is present and writable all the same: a page fault at its first byte was taken
to the first mapping, which covers the byte behind it. -/
def writableBehind : Machine where
  free := [2, 3, 4]
  bytes := fun _ _ => 0
  dir := {
    table := fun i => if i = 0x180 then some 0 else none
    pte := fun p => if p = 0x60001 then some ⟨1, pteW ||| pteU⟩ else none
    backed := by
      intro p hp
      refine if_neg ?_
      rintro rfl
      cases hp }
  maps := (Table.freshTable.next
    (.ummap 0 4096 protWrite (mapPrivate ||| mapAnonymous) 0 0)).next
      (.ummap 0 4096 1 (mapPrivate ||| mapAnonymous) 0 0)
  killed := false
  file := fun _ => ⟨true, true, 0, 0⟩
  data := fun _ => []

/-- A page directory without pages. -/
def noPages : PageDir := ⟨fun _ => none, fun _ => none, PageDir.none_backed⟩

theorem writableBehind_live {i : Int} (h : writableBehind.maps.Live i) : i = 0 ∨ i = 1 := by
  have htotal : writableBehind.maps.totalVmas = 2 := by decide +kernel
  obtain ⟨h0, hlt⟩ := h
  omega

theorem writableBehind_ready : Ready writableBehind := by
  refine ⟨Table.pageDisjoint_two (by decide +kernel) (by decide +kernel) (by decide +kernel)
    (by decide +kernel) (by decide +kernel), ?_, ?_, ?_, by decide +kernel, ?_⟩
  · intro i hi
    rcases writableBehind_live hi with rfl | rfl <;> decide +kernel
  · intro i hi
    rcases writableBehind_live hi with rfl | rfl <;> decide +kernel
  · intro i hi
    rcases writableBehind_live hi with rfl | rfl <;> decide +kernel
  · have hfree : writableBehind.free = [2, 3, 4] := rfl
    rintro f (⟨p, e, hp, rfl⟩ | ⟨i, hi⟩)
    · cases (Option.ite_none_right_eq_some.mp hp).2
      decide
    · cases (Option.ite_none_right_eq_some.mp hi).2
      decide

/-- The theorem at this process. -/
theorem copyMaps_private_two_pages :
    ∃ s, writableBehind.copyMaps noPages Table.freshTable = .ok s ∧ CopiedTo writableBehind s := by
  cases hcopy : writableBehind.copyMaps noPages Table.freshTable with
  | error e =>
    have hok : (writableBehind.copyMaps noPages Table.freshTable).toBool = true := by
      decide +kernel
    rw [hcopy] at hok
    cases hok
  | ok s => exact ⟨s, rfl, copyMaps_private writableBehind_ready (fun _ _ _ _ => rfl) hcopy⟩

/-- The page that the parent may write can only be read by the child. -/
theorem copy_not_writable :
    ¬ ∀ (m : Machine) (child : PageDir) (maps : Table) (s : Copying), Ready m →
      (∀ i, m.maps.Live i → ∀ p, (m.maps.vmas i).HasPage p → child.pte p = none) →
      m.copyMaps child maps = .ok s →
      ∀ i, m.maps.Live i → ∀ p, (m.maps.vmas i).HasPage p → ∀ e, m.dir.pte p = some e →
        ∃ e', s.child.pte p = some e' ∧ has e'.perm pteW = has e.perm pteW := by
  intro hall
  have hperm : ((writableBehind.copyMaps noPages Table.freshTable).toOption.map
      fun s => s.child.pte 0x60001) = some (some ⟨2, 5⟩) := by decide +kernel
  cases hcopy : writableBehind.copyMaps noPages Table.freshTable with
  | error e =>
    rw [hcopy] at hperm
    cases hperm
  | ok s =>
    rw [hcopy] at hperm
    have hpte : s.child.pte 0x60001 = some ⟨2, 5⟩ := Option.some.inj hperm
    obtain ⟨e', he', hsame⟩ := hall writableBehind noPages Table.freshTable s writableBehind_ready
      (fun _ _ _ _ => rfl) hcopy 1 ⟨by decide, by decide +kernel⟩ 0x60001
      ⟨by decide +kernel, by decide +kernel⟩ ⟨1, pteW ||| pteU⟩ rfl
    cases hpte.symm.trans he'
    exact absurd hsame (by decide)

end Copying

end Cs537.P5
