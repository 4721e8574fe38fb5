import Cs537.P5.Demand
import Mathlib.Data.List.FinRange
import Mathlib.Data.List.Perm.Lattice

/-!
# What a failing `fork` leaves behind

`fork` takes a slot of the process table and a frame for the kernel stack, copies the memory of the
process and then its mappings. Each of these steps may run out of frames. `copyuvm` gives back all it
has taken before it fails. `copy_maps` gives back nothing, neither what it has mapped in the child
nor what it has mapped in the parent, and `fork` then frees the kernel stack but not the page table
of the child. Whether `fork` gets that far, and fails there, can be told from the number of free
frames, the size of the process and its mappings.
-/

namespace Cs537.P5

open Cs537.Lib

/-- `enum procstate` (`proc.h:35`). -/
inductive ProcState where
  | unused
  | embryo
  | sleeping
  | runnable
  | running
  | zombie
  deriving DecidableEq

/-- A page directory, the page tables of its kernel part, and its user part. -/
structure Vm where
  pgdir : Nat
  kernel : List Nat
  user : PageDir

/-- The fields of `struct proc` that `fork` writes in a slot of the process table. -/
structure Slot where
  state : ProcState
  pid : Int
  kstack : Option Nat
  pgdir : Option Vm
  sz : Int
  maps : Table

/-- The process that runs, whose memory ends below `KERNBASE`, and the process table. -/
structure System where
  curproc : Machine
  sz : Int
  sz_le : sz ≤ kernBase
  slots : Fin 64 → Slot
  nextpid : Int

/-! ## Page tables and frames -/

/-- `kfree` (`kalloc.c:59-78`). -/
def Machine.kfree (m : Machine) (f : Nat) : Machine :=
  { m with free := f :: m.free, bytes := m.bytes.fill f 1 }

/-- The pages below `KERNBASE`. -/
def userPageNumbers : List Int := (List.range 0x80000).map fun (k : Nat) => (k : Int)

/-- The directory indices below `KERNBASE`. -/
def userTableNumbers : List Int := (List.range 512).map fun (k : Nat) => (k : Int)

/-- The frames that `freevm` (`vm.c:281-298`) frees, in its order. -/
def Vm.frames (vm : Vm) : List Nat :=
  userPageNumbers.filterMap (Option.map Pte.frame ∘ vm.user.pte) ++
    userTableNumbers.filterMap vm.user.table ++ vm.kernel ++ [vm.pgdir]

/-- `freevm` (`vm.c:281-298`). -/
def Machine.freevm (m : Machine) (vm : Vm) : Machine := vm.frames.foldl Machine.kfree m

/-- The number of page tables of the kernel part. -/
def kernelTables : Nat := 56 + 8

/-- `setupkvm` (`vm.c:119-138`). If there are too few frames, it has taken them all. -/
def Machine.setupkvm (m : Machine) : Option Vm × Machine :=
  match m.free with
  | [] => (none, m)
  | pgdir :: free =>
    let vm : Vm := ⟨pgdir, free.take kernelTables, Copying.noPages⟩
    let m := { m with free := free.drop kernelTables }
    if free.length < kernelTables then (none, m.freevm vm) else (some vm, m)

/-- Why the loop of `copyuvm` stops: the kernel does not come back, or it goes to `bad`. -/
inductive UvmStop where
  | halt (e : Halt)
  | bad (m : Machine) (vm : Vm)

/-- The second half of a round of `copyuvm` (`vm.c:334-340`): frame `mem` becomes page `k` of the
child. -/
def copyFrame (s : Machine × Vm) (k : Nat) (e : Pte) (mem : Nat) (free : List Nat) :
    Except UvmStop (Machine × Vm) :=
  let m := { s.1 with free := free, bytes := Function.update s.1.bytes mem (s.1.bytes e.frame) }
  match s.2.user.mappages free (pgsize * k) pgsize mem e.perm with
  | .error e => .error (.halt e)
  | .ok (false, user, free) =>
    .error (.bad ({ m with free := free }.kfree mem) { s.2 with user := user })
  | .ok (true, user, free) => .ok ({ m with free := free }, { s.2 with user := user })

/-- One round of `copyuvm` (`vm.c:327-341`), for page `k`. -/
def copyuvmPage (s : Machine × Vm) (k : Nat) : Except UvmStop (Machine × Vm) :=
  match s.1.dir.pte k with
  | none => .error (.halt .panic)
  | some e =>
    match s.1.free with
    | [] => .error (.bad s.1 s.2)
    | mem :: free => copyFrame s k e mem free

/-- `copyuvm` (`vm.c:317-347`). -/
def Machine.copyuvm (m : Machine) (sz : Int) : Except Halt (Option Vm × Machine) :=
  match m.setupkvm with
  | (none, m) => .ok (none, m)
  | (some vm, m) =>
    match (List.range (Pgdir.userPages sz)).foldlM copyuvmPage (m, vm) with
    | .error (.halt e) => .error e
    | .error (.bad m vm) => .ok (none, m.freevm vm)
    | .ok (m, vm) => .ok (some vm, m)

/-! ## `fork` -/

namespace System

/-- A slot of the process table is written. -/
def setSlot (k : System) (i : Fin 64) (np : Slot) : System :=
  { k with slots := Function.update k.slots i np }

/-- `allocproc` (`proc.c:75-118`): the slot, if there is one and a frame for its kernel stack. -/
def allocproc (k : System) : Option (Fin 64) × System :=
  match (List.finRange 64).find? fun i => (k.slots i).state = .unused with
  | none => (none, k)
  | some i =>
    let np := { k.slots i with state := .embryo, pid := k.nextpid }
    let k := { k with nextpid := i32 (k.nextpid + 1) }
    match k.curproc.free with
    | [] => (none, k.setSlot i { np with kstack := none, state := .unused })
    | kstack :: free =>
      (some i, { k with curproc := { k.curproc with free := free } }.setSlot i
        { np with kstack := some kstack, maps := np.maps.allocproc })

/-- What `fork` does with the slot before it returns -1 (`proc.c:194-198` and `201-206`). -/
def abandon (k : System) (i : Fin 64) : System :=
  match (k.slots i).kstack with
  | none => k
  | some kstack =>
    { k with curproc := k.curproc.kfree kstack }.setSlot i
      { k.slots i with kstack := none, state := .unused }

/-- The loop of `fork` over the entries in use (`proc.c:216-221`). -/
def copyInUse (parent child : Table) : Table :=
  { child with vmas := fun j =>
      if 0 ≤ j ∧ j < parent.totalVmas ∧ (parent.vmas j).inUse ≠ 0 then parent.vmas j
      else child.vmas j }

/-- `fork` (`proc.c:182-239`): the process id, or `none` for -1. -/
def fork (k : System) : Except Halt (Option Int × System) :=
  match k.allocproc with
  | (none, k) => .ok (none, k)
  | (some i, k) =>
    match k.curproc.copyuvm k.sz with
    | .error e => .error e
    | .ok (none, m) =>
      .ok (none, ({ k with curproc := m }.setSlot i { k.slots i with pgdir := none }).abandon i)
    | .ok (some vm, m) =>
      match m.copyMaps vm.user (k.slots i).maps with
      | .error (.halt e) => .error e
      | .error (.failed s) =>
        .ok (none, ({ k with curproc := s.parent }.setSlot i { k.slots i with
          pgdir := some { vm with user := s.child }, maps := s.maps }).abandon i)
      | .ok s =>
        .ok (some (k.slots i).pid, { k with curproc := s.parent }.setSlot i { k.slots i with
          pgdir := some { vm with user := s.child }
          maps := copyInUse s.parent.maps s.maps
          sz := k.sz
          state := .runnable })

end System

/-! ## Frames taken and given back -/

namespace Machine

variable {m m' : Machine} {vm : Vm}

theorem freevm_eq (m : Machine) (vm : Vm) :
    ∃ bytes, m.freevm vm = { m with free := vm.frames.reverse ++ m.free, bytes := bytes } := by
  have hgeneral : ∀ (fs : List Nat) (m : Machine), ∃ bytes, fs.foldl kfree m =
      { m with free := fs.reverse ++ m.free, bytes := bytes } := by
    intro fs
    induction fs with
    | nil => exact fun m => ⟨m.bytes, rfl⟩
    | cons f fs ih =>
      intro m
      obtain ⟨bytes, hbytes⟩ := ih (m.kfree f)
      refine ⟨bytes, ?_⟩
      rw [List.foldl_cons, hbytes, List.reverse_cons, List.append_assoc]
      rfl
  exact hgeneral vm.frames m

/-- The frames of a page directory without user pages. -/
theorem frames_noPages (pgdir : Nat) (kernel : List Nat) :
    Vm.frames ⟨pgdir, kernel, Copying.noPages⟩ = kernel ++ [pgdir] := by
  have hnone {β : Type} (l : List Int) : l.filterMap (fun _ => (none : Option β)) = [] :=
    List.filterMap_eq_nil_iff.mpr fun _ _ => rfl
  unfold Vm.frames Copying.noPages
  rw [hnone, show (Option.map Pte.frame ∘ fun _ : Int => (none : Option Pte)) =
    fun _ => (none : Option Nat) from rfl, hnone]
  rfl

/-- What a process keeps while it copies its memory, and that no frame is lost. -/
structure Copies (m m' : Machine) (taken : List Nat) : Prop where
  dir : m'.dir = m.dir
  maps : m'.maps = m.maps
  frames : (taken ++ m'.free).Perm m.free

theorem setupkvm_none (h : m.setupkvm = (none, m')) : Copies m m' [] := by
  unfold setupkvm at h
  cases hfree : m.free with
  | nil =>
    rw [hfree] at h
    cases h
    exact ⟨rfl, rfl, .refl _⟩
  | cons pgdir free =>
    rw [hfree] at h
    simp only at h
    split at h
    · rename_i hfew
      obtain ⟨bytes, hbytes⟩ := freevm_eq { m with free := free.drop kernelTables }
        ⟨pgdir, free.take kernelTables, Copying.noPages⟩
      rw [hbytes, Prod.mk.injEq] at h
      obtain ⟨-, rfl⟩ := h
      refine ⟨rfl, rfl, ?_⟩
      rw [hfree, frames_noPages, List.take_of_length_le (Nat.le_of_lt hfew),
        List.drop_of_length_le (Nat.le_of_lt hfew), List.append_nil, List.nil_append]
      refine (List.reverse_perm _).trans ?_
      exact List.perm_append_comm
    · cases h

theorem setupkvm_some (h : m.setupkvm = (some vm, m')) :
    Copies m m' vm.frames ∧ vm.user = Copying.noPages := by
  unfold setupkvm at h
  cases hfree : m.free with
  | nil =>
    rw [hfree] at h
    cases h
  | cons pgdir free =>
    rw [hfree] at h
    simp only at h
    split at h
    · cases h
    · cases h
      refine ⟨⟨rfl, rfl, ?_⟩, rfl⟩
      rw [hfree, frames_noPages]
      have hsplit := List.take_append_drop kernelTables free
      have hmove : (free.take kernelTables ++ [pgdir] ++ free.drop kernelTables).Perm
          ([pgdir] ++ (free.take kernelTables ++ free.drop kernelTables)) := by
        rw [← List.append_assoc]
        exact List.perm_append_comm.append_right _
      rw [hsplit] at hmove
      exact hmove

theorem mem_userPageNumbers {k : Nat} (hk : k < 0x80000) : (k : Int) ∈ userPageNumbers :=
  List.mem_map.mpr ⟨k, List.mem_range.mpr hk, rfl⟩

theorem mem_userTableNumbers {k : Nat} (hk : k < 512) : (k : Int) ∈ userTableNumbers :=
  List.mem_map.mpr ⟨k, List.mem_range.mpr hk, rfl⟩

theorem nodup_numbers (n : Nat) : ((List.range n).map fun (k : Nat) => (k : Int)).Nodup :=
  List.Nodup.map (fun _ _ h => Int.ofNat_inj.mp h) List.nodup_range

/-- A page that was mapped takes its frame. -/
theorem frames_setPte {vm vm' : Vm} {p : Int} (e : Pte) (hp : p ∈ userPageNumbers)
    (habsent : vm.user.pte p = none) (hkernel : vm'.kernel ++ [vm'.pgdir] = vm.kernel ++ [vm.pgdir])
    (htable : vm'.user.table = vm.user.table)
    (hpte : vm'.user.pte = Function.update vm.user.pte p (some e)) :
    vm'.frames.Perm (e.frame :: vm.frames) := by
  have hpages := filterMap_update_perm (g := Option.map Pte.frame ∘ vm.user.pte) e.frame
    (nodup_numbers _) hp (by rw [Function.comp_apply, habsent]; rfl)
  have hcomp : Option.map Pte.frame ∘ vm'.user.pte =
      Function.update (Option.map Pte.frame ∘ vm.user.pte) p (some e.frame) := by
    rw [hpte, Function.comp_update]
    rfl
  unfold Vm.frames
  rw [List.append_assoc _ vm'.kernel, List.append_assoc _ vm.kernel, hkernel, hcomp, htable,
    ← List.cons_append, ← List.cons_append]
  exact (hpages.append_right _).append_right _

/-- A page table that was added takes its frame. -/
theorem frames_addTable {vm vm' : Vm} {i : Int} (g : Nat) (hi : i ∈ userTableNumbers)
    (habsent : vm.user.table i = none)
    (hkernel : vm'.kernel ++ [vm'.pgdir] = vm.kernel ++ [vm.pgdir])
    (htable : vm'.user.table = Function.update vm.user.table i (some g))
    (hpte : vm'.user.pte = vm.user.pte) : vm'.frames.Perm (g :: vm.frames) := by
  have htables := filterMap_update_perm (g := vm.user.table) g (nodup_numbers _) hi habsent
  unfold Vm.frames
  rw [List.append_assoc _ vm'.kernel, List.append_assoc _ vm.kernel, hkernel, htable, hpte,
    ← List.cons_append]
  exact ((htables.append_left _).trans List.perm_middle).append_right _

/-- A frame that was free is taken. -/
theorem perm_take {f : Nat} {taken taken' free all : List Nat} (htaken : taken'.Perm (f :: taken))
    (hall : (taken ++ f :: free).Perm all) : (taken' ++ free).Perm all :=
  (htaken.append_right free).trans (List.perm_middle.symm.trans hall)

/-- What a round of `copyuvm` does. -/
inductive UvmRound (s : Machine × Vm) (k : Nat) : Except UvmStop (Machine × Vm) → Prop
  | panicked : UvmRound s k (.error (.halt .panic))
  | noFrame (empty : s.1.free = []) : UvmRound s k (.error (.bad s.1 s.2))
  | noTable (mem : Nat) (bytes : FrameBytes) (taken : s.1.free = [mem])
      (missing : s.2.user.table ((k / 1024 : Nat) : Int) = none) :
      UvmRound s k (.error (.bad { s.1 with free := [mem], bytes := bytes } s.2))
  | copied (e : Pte) (rest : List Nat) (bytes : FrameBytes) (user : PageDir)
      (taken : s.1.free = e.frame :: rest) (absent : s.2.user.pte k = none)
      (table : user.table = s.2.user.table)
      (pte : user.pte = Function.update s.2.user.pte k (some e)) :
      UvmRound s k (.ok ({ s.1 with free := rest, bytes := bytes }, { s.2 with user := user }))
  | withTable (e : Pte) (g : Nat) (rest : List Nat) (bytes : FrameBytes) (user : PageDir)
      (taken : s.1.free = e.frame :: g :: rest) (absent : s.2.user.pte k = none)
      (missing : s.2.user.table ((k / 1024 : Nat) : Int) = none)
      (table : user.table = Function.update s.2.user.table ((k / 1024 : Nat) : Int) (some g))
      (pte : user.pte = Function.update s.2.user.pte k (some e)) :
      UvmRound s k (.ok ({ s.1 with free := rest, bytes := bytes }, { s.2 with user := user }))

theorem copyFrame_round {s : Machine × Vm} {k : Nat} (hk : k < 0x80000) (e : Pte) {mem : Nat}
    {rest : List Nat} (hfree : s.1.free = mem :: rest) : UvmRound s k (copyFrame s k e mem rest) := by
  have hpage : pageOf (pgsize * k) = k := Pgdir.pageOf_mul k
  have htable : pdx (pgsize * k) = ((k / 1024 : Nat) : Int) := by
    unfold pdx pgsize
    omega
  have hmap : s.2.user.mappages rest (pgsize * k) pgsize mem e.perm =
      PageDir.mapLoop 1 s.2.user rest (pgsize * k) mem e.perm :=
    PageDir.mappages_eq rest mem e.perm (Int.dvd_mul_right _ _) (by unfold pgsize; omega)
      (by unfold pgsize; omega) (by decide) (Int.le_refl _)
  rw [copyFrame, hmap]
  by_cases habsent : s.2.user.pte k = none
  · have hone := PageDir.mapLoop_one rest mem e.perm
      (show s.2.user.pte (pageOf (pgsize * k)) = none by rw [hpage]; exact habsent)
    cases hone with
    | noTable missing empty eq =>
      rw [eq]
      rw [empty] at hfree
      rw [htable] at missing
      exact .noTable mem _ hfree missing
    | mapped d' there table pte eq =>
      rw [eq]
      rw [hpage] at pte
      exact .copied ⟨mem, e.perm⟩ rest _ d' hfree habsent table pte
    | newTable d' g rest' missing taken table pte eq =>
      rw [eq]
      rw [hpage] at pte
      rw [htable] at missing table
      rw [taken] at hfree
      exact .withTable ⟨mem, e.perm⟩ g rest' _ d' hfree habsent missing table pte
  · rw [PageDir.mapLoop_panic rest mem e.perm (by rw [hpage]; exact habsent)]
    exact .panicked

theorem copyuvmPage_round {s : Machine × Vm} {k : Nat} (hk : k < 0x80000) :
    UvmRound s k (copyuvmPage s k) := by
  unfold copyuvmPage
  cases hpte : s.1.dir.pte k with
  | none => exact .panicked
  | some e =>
    cases hfree : s.1.free with
    | nil => exact .noFrame hfree
    | cons mem rest => exact copyFrame_round hk e hfree

/-- A round of `copyuvm` loses no frame, whether it goes through or not. -/
theorem UvmRound.copies {s : Machine × Vm} {k : Nat} {r : Except UvmStop (Machine × Vm)}
    (hround : UvmRound s k r) (hk : k < 0x80000) (h : Copies m s.1 s.2.frames) :
    (∀ s', r = .ok s' → Copies m s'.1 s'.2.frames) ∧
      ∀ m' vm, r = .error (.bad m' vm) → Copies m m' vm.frames := by
  obtain ⟨hdir, hmaps, hframes⟩ := h
  cases hround with
  | panicked => exact ⟨fun s' hs => (by cases hs), fun m' vm hs => (by cases hs)⟩
  | noFrame empty =>
    refine ⟨fun s' hs => (by cases hs), ?_⟩
    rintro m' vm hs
    cases hs
    exact ⟨hdir, hmaps, hframes⟩
  | noTable mem bytes taken missing =>
    refine ⟨fun s' hs => (by cases hs), ?_⟩
    rintro m' vm hs
    cases hs
    rw [taken] at hframes
    exact ⟨hdir, hmaps, hframes⟩
  | copied e rest bytes user taken absent table pte =>
    refine ⟨?_, fun m' vm hs => (by cases hs)⟩
    rintro s' hs
    cases hs
    rw [taken] at hframes
    exact ⟨hdir, hmaps,
      perm_take (frames_setPte e (mem_userPageNumbers hk) absent rfl table pte) hframes⟩
  | withTable e g rest bytes user taken absent missing table pte =>
    refine ⟨?_, fun m' vm hs => (by cases hs)⟩
    rintro s' hs
    cases hs
    -- the page table first, then the page
    let tabled : Vm := ⟨s.2.pgdir, s.2.kernel, s.2.user.addTable ((k / 1024 : Nat) : Int) g⟩
    let paged : Vm := ⟨s.2.pgdir, s.2.kernel, user⟩
    have hadded : tabled.frames.Perm (g :: s.2.frames) :=
      frames_addTable g (mem_userTableNumbers (by omega)) missing rfl rfl rfl
    have hset : paged.frames.Perm (e.frame :: tabled.frames) :=
      frames_setPte e (mem_userPageNumbers hk) absent rfl table pte
    rw [taken] at hframes
    have hswapped : (s.2.frames ++ g :: e.frame :: rest).Perm m.free :=
      ((List.Perm.swap e.frame g rest).append_left _).trans hframes
    exact ⟨hdir, hmaps, perm_take hset (perm_take hadded hswapped)⟩

theorem Copies.freevm {m₁ : Machine} (h : Copies m m₁ vm.frames) :
    Copies m (m₁.freevm vm) [] := by
  obtain ⟨bytes, hbytes⟩ := freevm_eq m₁ vm
  rw [hbytes]
  refine ⟨h.dir, h.maps, ?_⟩
  rw [List.nil_append]
  exact ((List.reverse_perm _).append_right _).trans h.frames

/-- `copyuvm` loses no frame, and gives all of them back if it fails. -/
theorem copyuvm_copies {sz : Int} (hsz : sz ≤ kernBase) {r : Option Vm}
    (hok : m.copyuvm sz = .ok (r, m')) : Copies m m' (r.elim [] Vm.frames) := by
  have hk : kernBase = 0x80000000 := rfl
  have hpages (k : Nat) (hmem : k ∈ List.range (Pgdir.userPages sz)) : k < 0x80000 := by
    have hlt := List.mem_range.mp hmem
    unfold Pgdir.userPages at hlt
    omega
  unfold copyuvm at hok
  rcases hsetup : m.setupkvm with ⟨_ | vm, m₁⟩
  · rw [hsetup] at hok
    cases hok
    exact setupkvm_none hsetup
  · rw [hsetup] at hok
    simp only at hok
    have hstart := (setupkvm_some hsetup).1
    cases hloop : (List.range (Pgdir.userPages sz)).foldlM copyuvmPage (m₁, vm) with
    | ok s =>
      obtain ⟨m₂, vm'⟩ := s
      rw [hloop] at hok
      cases hok
      rw [Option.elim_some]
      exact foldlM_invariant (fun s => Copies m s.1 s.2.frames) hloop hstart fun k hmem t t' h hround =>
        ((copyuvmPage_round (hpages k hmem)).copies (hpages k hmem) h).1 t' hround
    | error e =>
      cases e with
      | halt e =>
        rw [hloop] at hok
        cases hok
      | bad m₂ vm' =>
        rw [hloop] at hok
        cases hok
        obtain ⟨k, hmem, t, ht, hround⟩ := foldlM_error (fun s => Copies m s.1 s.2.frames) hloop
          hstart fun k hmem t t' h hround =>
            ((copyuvmPage_round (hpages k hmem)).copies (hpages k hmem) h).1 t' hround
        have hcopies := ((copyuvmPage_round (hpages k hmem)).copies (hpages k hmem) ht).2 m₂ vm' hround
        exact hcopies.freevm

/-! ## How many frames the copy of the memory takes -/

/-- The page tables of the first `n` pages. -/
def uvmTables (n : Nat) : Nat := (n + 1023) / 1024

/-- The frames that `copyuvm` takes. -/
def uvmFrames (sz : Int) : Nat :=
  1 + kernelTables + Pgdir.userPages sz + uvmTables (Pgdir.userPages sz)

/-- What the first `n` rounds of `copyuvm` have taken. -/
structure UvmCounted (m : Machine) (n : Nat) (s : Machine × Vm) : Prop where
  free : s.1.free.length + (1 + kernelTables + n + uvmTables n) = m.free.length
  table : ∀ i, s.2.user.table i = none ↔ ¬ (0 ≤ i ∧ i < uvmTables n)

theorem setupkvm_counted :
    (∀ m', m.setupkvm = (none, m') → m.free.length < 1 + kernelTables) ∧
      ∀ vm m', m.setupkvm = (some vm, m') → UvmCounted m 0 (m', vm) := by
  unfold setupkvm
  cases hfree : m.free with
  | nil =>
    refine ⟨fun m' _ => by rw [List.length_nil]; omega, fun vm m' h => ?_⟩
    cases h
  | cons pgdir free =>
    simp only
    by_cases hfew : free.length < kernelTables
    · rw [if_pos hfew]
      refine ⟨fun m' _ => by rw [List.length_cons]; omega, fun vm m' h => ?_⟩
      cases h
    · rw [if_neg hfew]
      refine ⟨fun m' h => (by cases h), fun vm m' h => ?_⟩
      cases h
      refine ⟨?_, fun i => ?_⟩
      · simp only [hfree, List.length_drop, List.length_cons]
        unfold uvmTables
        omega
      · unfold uvmTables
        exact ⟨fun _ hi => by omega, fun _ => rfl⟩

/-- A round takes a frame for the page and, for every 1024th page, one for a page table. -/
theorem UvmRound.counted {s : Machine × Vm} {k : Nat} {r : Except UvmStop (Machine × Vm)}
    (hround : UvmRound s k r) (h : UvmCounted m k s) :
    Yields (UvmCounted m (k + 1)) (fun e => ∀ m' vm, e = .bad m' vm →
      m.free.length < 1 + kernelTables + (k + 1) + uvmTables (k + 1)) r := by
  have hfree := h.free
  have htables : uvmTables (k + 1) = uvmTables k ∨
      uvmTables (k + 1) = uvmTables k + 1 ∧ uvmTables k = k / 1024 := by
    unfold uvmTables
    omega
  cases hround with
  | panicked =>
    intro m' vm he
    cases he
  | noFrame empty =>
    intro m' vm _
    rw [empty, List.length_nil] at hfree
    omega
  | noTable mem bytes taken missing =>
    intro m' vm _
    rw [taken, List.length_singleton] at hfree
    have hbehind := (h.table _).mp missing
    unfold uvmTables at *
    omega
  | copied e rest bytes user taken absent table pte =>
    -- the page is there, so that its page table is
    have hthere : s.2.user.table ((k / 1024 : Nat) : Int) ≠ none := by
      intro hnone
      have hback := user.backed k (by rw [table]; exact hnone)
      rw [pte, Function.update_self] at hback
      cases hback
    have hinside := mt (h.table ((k / 1024 : Nat) : Int)).mpr hthere
    rw [not_not] at hinside
    have hsame : uvmTables (k + 1) = uvmTables k := by
      unfold uvmTables at *
      omega
    rw [taken, List.length_cons] at hfree
    refine ⟨?_, fun i => ?_⟩
    · rw [hsame]
      simp only
      omega
    · rw [hsame]
      simp only
      rw [table]
      exact h.table i
  | withTable e g rest bytes user taken absent missing table pte =>
    have hbehind := (h.table _).mp missing
    have hmore : uvmTables (k + 1) = uvmTables k + 1 ∧ uvmTables k = k / 1024 := by
      unfold uvmTables at *
      omega
    rw [taken, List.length_cons, List.length_cons] at hfree
    refine ⟨?_, fun i => ?_⟩
    · rw [hmore.1]
      simp only
      omega
    · simp only
      rw [table, Function.update_apply, hmore.1]
      split
      · refine ⟨fun hnone => absurd hnone (Option.some_ne_none g), fun hnot => ?_⟩
        omega
      · rw [h.table i]
        omega

/-- `copyuvm` fails for want of frames, or it has taken as many as it needs. -/
theorem copyuvm_counted {sz : Int} (hsz : sz ≤ kernBase) :
    (∀ m', m.copyuvm sz = .ok (none, m') → m.free.length < uvmFrames sz) ∧
      ∀ vm m', m.copyuvm sz = .ok (some vm, m') →
        UvmCounted m (Pgdir.userPages sz) (m', vm) := by
  have hk : kernBase = 0x80000000 := rfl
  have hpages (k : Nat) (hlt : k < Pgdir.userPages sz) : k < 0x80000 := by
    unfold Pgdir.userPages at hlt
    omega
  unfold copyuvm
  rcases hsetup : m.setupkvm with ⟨_ | vm₁, m₁⟩
  · have hfew := setupkvm_counted.1 m₁ hsetup
    refine ⟨fun m' _ => ?_, fun vm m' h => ?_⟩
    · unfold uvmFrames
      omega
    · cases h
  · have hstart := setupkvm_counted.2 vm₁ m₁ hsetup
    have hloop : Yields (fun s => UvmCounted m (List.range (Pgdir.userPages sz)).length s)
        (fun e => ∀ m' vm, e = .bad m' vm → m.free.length < uvmFrames sz)
        ((List.range (Pgdir.userPages sz)).foldlM copyuvmPage (m₁, vm₁)) := by
      refine Yields.foldlM_prefix (fun done s => UvmCounted m done.length s) hstart ?_
      intro done k rest s hrange hs
      have hplace : done.length = k ∧ k < Pgdir.userPages sz := by
        have hget := congrArg (fun l => l[done.length]?) hrange
        simp only [List.getElem?_append_right (Nat.le_refl _), Nat.sub_self,
          List.getElem?_cons_zero] at hget
        have hlt := (List.getElem?_eq_some_iff.mp hget).1
        rw [List.length_range] at hlt
        rw [List.getElem?_range hlt] at hget
        cases hget
        exact ⟨rfl, hlt⟩
      obtain ⟨rfl, hlt⟩ := hplace
      have hround := (copyuvmPage_round (s := s) (hpages _ hlt)).counted hs
      cases hr : copyuvmPage s done.length with
      | ok s' =>
        rw [hr] at hround
        show UvmCounted m (done ++ [done.length]).length s'
        rw [List.length_append]
        exact hround
      | error e =>
        rw [hr] at hround
        intro m' vm he
        have hfew := hround m' vm he
        have hmono : uvmTables (done.length + 1) ≤ uvmTables (Pgdir.userPages sz) := by
          unfold uvmTables
          omega
        unfold uvmFrames
        omega
    rw [List.length_range] at hloop
    simp only
    cases hr : (List.range (Pgdir.userPages sz)).foldlM copyuvmPage (m₁, vm₁) with
    | ok s =>
      rw [hr] at hloop
      obtain ⟨m₂, vm₂⟩ := s
      refine ⟨fun m' h => (by cases h), fun vm m' h => ?_⟩
      cases h
      exact hloop
    | error e =>
      rw [hr] at hloop
      cases e with
      | halt e =>
        refine ⟨fun m' h => (by cases h), fun vm m' h => (by cases h)⟩
      | bad m₂ vm₂ =>
        refine ⟨fun m' _ => hloop m₂ vm₂ rfl, fun vm m' h => (by cases h)⟩

end Machine

/-! ## What `copy_maps` takes -/

namespace PageDir

variable {d d' : PageDir} {free free' : List Nat}

theorem walkpgdir_suffix {va : Int} (h : d.walkpgdir free va = some (d', free')) :
    free' <:+ free := by
  unfold walkpgdir at h
  split at h
  · cases h
    exact List.suffix_refl _
  · cases free with
    | nil => cases h
    | cons f free =>
      cases h
      exact List.suffix_cons f _

theorem mapLoop_suffix {n f : Nat} {a : Int} {perm : UInt32} {done : Bool}
    (h : mapLoop n d free a f perm = .ok (done, d', free')) : free' <:+ free := by
  induction n generalizing d free a f with
  | zero =>
    cases h
    exact List.suffix_refl _
  | succ n ih =>
    rw [mapLoop] at h
    cases hwalk : d.walkpgdir free a with
    | none =>
      rw [hwalk] at h
      cases h
      exact List.suffix_refl _
    | some s =>
      obtain ⟨d₁, free₁⟩ := s
      rw [hwalk] at h
      simp only at h
      split at h
      · cases h
      · exact (ih h).trans (walkpgdir_suffix hwalk)

theorem mappages_suffix {va size : Int} {f : Nat} {perm : UInt32} {done : Bool}
    (h : d.mappages free va size f perm = .ok (done, d', free')) : free' <:+ free :=
  mapLoop_suffix h

end PageDir

theorem Machine.doMapHelper_suffix {p p' : Machine} {size faultAddr : Int} {vma : Vma} {done : Bool}
    (h : p.doMapHelper size faultAddr vma = .ok (done, p')) : p'.free <:+ p.free := by
  unfold doMapHelper at h
  cases hfree : p.free with
  | nil =>
    rw [hfree] at h
    cases h
    exact List.suffix_refl _
  | cons mem rest =>
    rw [hfree] at h
    simp only at h
    cases hmap : p.dir.mappages rest (pageOf faultAddr * pgsize) size mem (mapPerm vma) with
    | error e =>
      rw [hmap] at h
      cases h
    | ok r =>
      obtain ⟨mapped, dir, free⟩ := r
      have hsuffix := (PageDir.mappages_suffix hmap).trans (List.suffix_cons mem rest)
      rw [hmap] at h
      cases mapped with
      | false =>
        cases h
        exact hsuffix
      | true =>
        simp only at h
        split at h
        · cases h
          exact hsuffix
        · split at h
          · cases h
          · rename_i hread
            cases h
            rw [(Machine.fileread_same hread).2.1]
            exact hsuffix

namespace Copying

/-- No frame comes back. -/
theorem copyPage_suffix {vma : Vma} {s s' : Copying} {start : Int}
    (h : copyPage vma s start = .ok s' ∨ copyPage vma s start = .error (.failed s')) :
    s'.parent.free <:+ s.parent.free := by
  unfold copyPage at h
  split at h
  · split at h
    · rcases h with h | h
      · cases h
        exact List.suffix_refl _
      · cases h
    · simp only at h
      split at h
      · rcases h with h | h <;> cases h
      · rename_i hhelper
        rcases h with h | h
        · cases h
        · cases h
          exact Machine.doMapHelper_suffix hhelper
      · rename_i hhelper
        rcases h with h | h
        · cases h
          exact Machine.doMapHelper_suffix hhelper
        · cases h
  · split at h
    · rcases h with h | h
      · cases h
        exact List.suffix_refl _
      · cases h
    · split at h
      · rcases h with h | h
        · cases h
        · cases h
          exact List.suffix_refl _
      · rename_i mem rest hfree
        rw [hfree]
        simp only at h
        split at h
        · rcases h with h | h <;> cases h
        · rename_i hmap
          rcases h with h | h
          · cases h
          · cases h
            exact (PageDir.mappages_suffix hmap).trans (List.suffix_cons mem rest)
        · rename_i hmap
          rcases h with h | h
          · cases h
            exact (PageDir.mappages_suffix hmap).trans (List.suffix_cons mem rest)
          · cases h

theorem copyEntry_suffix {s s' : Copying} {i : Nat}
    (h : s.copyEntry i = .ok s' ∨ s.copyEntry i = .error (.failed s')) :
    s'.parent.free <:+ s.parent.free := by
  unfold copyEntry at h
  simp only at h
  cases hpages : (s.parent.maps.vmas i).pages.foldlM (copyPage (s.parent.maps.vmas i)) s with
  | ok t =>
    rw [hpages] at h
    rcases h with h | h
    · cases h
      show t.parent.free <:+ s.parent.free
      exact foldlM_invariant (fun t : Copying => t.parent.free <:+ s.parent.free) hpages
        (List.suffix_refl _) fun _ _ t t' ht hround => (copyPage_suffix (.inl hround)).trans ht
    · cases h
  | error e =>
    rw [hpages] at h
    rcases h with h | h
    · cases h
    · cases h
      obtain ⟨start, -, t, ht, hround⟩ := foldlM_error
        (fun t : Copying => t.parent.free <:+ s.parent.free) hpages (List.suffix_refl _)
        fun _ _ t t' ht hround => (copyPage_suffix (.inl hround)).trans ht
      exact (copyPage_suffix (.inr hround)).trans ht

end Copying

theorem Machine.copyMaps_suffix {m : Machine} {child : PageDir} {maps : Table} {s : Copying}
    (h : m.copyMaps child maps = .error (.failed s)) : s.parent.free <:+ m.free := by
  unfold copyMaps at h
  cases hloop : (List.range m.maps.totalVmas.toNat).foldlM Copying.copyEntry ⟨m, child, maps⟩ with
  | ok t =>
    rw [hloop] at h
    cases h
  | error e =>
    rw [hloop] at h
    cases h
    obtain ⟨i, -, t, ht, hround⟩ := foldlM_error
      (fun t : Copying => t.parent.free <:+ m.free) hloop (List.suffix_refl _)
      fun _ _ t t' ht hround => (Copying.copyEntry_suffix (.inl hround)).trans ht
    exact (Copying.copyEntry_suffix (.inr hround)).trans ht

/-! ## A failing `fork` -/

namespace System

variable {k k' k₁ : System} {i : Fin 64}

/-- Nothing is left of a call: the same frames are free, the page table and the entries of the
process that runs are the same, and so are the states of all slots. -/
structure NoTrace (k k' : System) : Prop where
  free : k'.curproc.free.Perm k.curproc.free
  dir : k'.curproc.dir = k.curproc.dir
  maps : k'.curproc.maps = k.curproc.maps
  states : ∀ j, (k'.slots j).state = (k.slots j).state

/-- `fork` gets as far as `copy_maps`, and `copy_maps` returns -1. -/
def CopyFails (k : System) : Prop :=
  ∃ i k₁ vm m s, k.allocproc = (some i, k₁) ∧ k₁.curproc.copyuvm k₁.sz = .ok (some vm, m) ∧
    m.copyMaps vm.user (k₁.slots i).maps = .error (.failed s)

theorem setSlot_state {np : Slot} (hstate : np.state = (k.slots i).state) (j : Fin 64) :
    ((k.setSlot i np).slots j).state = (k.slots j).state := by
  simp only [setSlot, Function.update_apply]
  split
  · rename_i hj
    rw [hj, hstate]
  · rfl

/-- A process table without a free slot, or no frame for the kernel stack. -/
theorem noTrace_of_allocproc (h : k.allocproc = (none, k')) : NoTrace k k' := by
  unfold allocproc at h
  split at h
  · cases h
    exact ⟨.refl _, rfl, rfl, fun _ => rfl⟩
  · rename_i i hfind
    have hunused : (k.slots i).state = .unused := by simpa using List.find?_some hfind
    simp only at h
    split at h
    · cases h
      refine ⟨.refl _, rfl, rfl, fun j => ?_⟩
      exact setSlot_state (k := { k with nextpid := _ }) hunused.symm j
    · cases h

/-- What `allocproc` does if it succeeds. -/
structure Allocated (k k₁ : System) (i : Fin 64) (kstack : Nat) : Prop where
  unused : (k.slots i).state = .unused
  free : k.curproc.free = kstack :: k₁.curproc.free
  dir : k₁.curproc.dir = k.curproc.dir
  maps : k₁.curproc.maps = k.curproc.maps
  slot : (k₁.slots i).kstack = some kstack
  others : ∀ j, j ≠ i → k₁.slots j = k.slots j

theorem allocproc_allocated (h : k.allocproc = (some i, k₁)) :
    ∃ kstack, Allocated k k₁ i kstack := by
  unfold allocproc at h
  split at h
  · cases h
  · rename_i i hfind
    have hunused : (k.slots i).state = .unused := by simpa using List.find?_some hfind
    simp only at h
    split at h
    · cases h
    · rename_i kstack rest hfree
      cases h
      refine ⟨kstack, hunused, hfree, rfl, rfl, ?_, ?_⟩
      · simp only [setSlot, Function.update_self]
      · intro j hj
        simp only [setSlot, Function.update_of_ne hj]

/-- Giving up the slot. -/
theorem Allocated.abandon {kstack : Nat} (h : Allocated k k₁ i kstack) (m : Machine) {np : Slot}
    (hstack : np.kstack = some kstack) :
    (({ k₁ with curproc := m }.setSlot i np).abandon i).curproc = m.kfree kstack ∧
      ∀ j, ((({ k₁ with curproc := m }.setSlot i np).abandon i).slots j).state =
        (k.slots j).state := by
  have hslot : ({ k₁ with curproc := m }.setSlot i np).slots i = np := Function.update_self _ _ _
  unfold System.abandon
  rw [hslot, hstack]
  refine ⟨rfl, ?_⟩
  intro j
  by_cases hj : j = i
  · rw [hj, h.unused]
    simp only [setSlot, Function.update_self]
  · simp only [setSlot, Function.update_of_ne hj]
    rw [h.others j hj]

/-- `fork` fails because the memory of the process could not be copied. -/
theorem Allocated.noTrace {kstack : Nat} {m : Machine} {np : Slot} (h : Allocated k k₁ i kstack)
    (hcopies : Machine.Copies k₁.curproc m []) (hstack : np.kstack = some kstack) :
    NoTrace k (({ k₁ with curproc := m }.setSlot i np).abandon i) := by
  obtain ⟨hproc, hstates⟩ := h.abandon m hstack
  have hframes := hcopies.frames
  rw [List.nil_append] at hframes
  refine ⟨?_, ?_, ?_, hstates⟩
  · rw [hproc, h.free]
    exact hframes.cons kstack
  · rw [hproc]
    exact hcopies.dir.trans h.dir
  · rw [hproc]
    exact hcopies.maps.trans h.maps

/-- `fork` fails because the mappings could not be copied: the frames of the page table of the child
are gone. -/
theorem Allocated.leaks {kstack : Nat} {m : Machine} {vm : Vm} {s : Copying} {np : Slot}
    (h : Allocated k k₁ i kstack) (hcopies : Machine.Copies k₁.curproc m vm.frames)
    (hsuffix : s.parent.free <:+ m.free) (hstack : np.kstack = some kstack) :
    ¬ NoTrace k (({ k₁ with curproc := s.parent }.setSlot i np).abandon i) := by
  intro hnone
  obtain ⟨hproc, -⟩ := h.abandon s.parent hstack
  have hlength := hnone.free.length_eq
  have hframes := hcopies.frames.length_eq
  have hle := hsuffix.length_le
  have hown : 0 < vm.frames.length := by
    unfold Vm.frames
    rw [List.length_append]
    exact Nat.lt_of_lt_of_le Nat.zero_lt_one (Nat.le_add_left 1 _)
  rw [hproc, h.free] at hlength
  rw [List.length_append] at hframes
  simp only [Machine.kfree, List.length_cons] at hlength
  omega

/-- A failing `fork` leaves no trace if and only if it does not fail in `copy_maps`. -/
theorem noTrace_iff (k : System) :
    (∀ k', k.fork = .ok (none, k') → NoTrace k k') ↔ ¬ CopyFails k := by
  constructor
  · rintro hnone ⟨i, k₁, vm, m, s, halloc, hcopy, hfails⟩
    obtain ⟨kstack, hallocated⟩ := allocproc_allocated halloc
    have hfork : k.fork = .ok (none, ({ k₁ with curproc := s.parent }.setSlot i
        { k₁.slots i with pgdir := some { vm with user := s.child }, maps := s.maps }).abandon i) := by
      unfold fork
      rw [halloc]
      simp only
      rw [hcopy]
      simp only
      rw [hfails]
    have hcopies := Machine.copyuvm_copies k₁.sz_le hcopy
    rw [Option.elim_some] at hcopies
    refine hallocated.leaks hcopies (Machine.copyMaps_suffix hfails) ?_ (hnone _ hfork)
    exact hallocated.slot
  · intro hok k' hfork
    unfold fork at hfork
    rcases halloc : k.allocproc with ⟨_ | i, k₁⟩
    · rw [halloc] at hfork
      cases hfork
      exact noTrace_of_allocproc halloc
    · obtain ⟨kstack, hallocated⟩ := allocproc_allocated halloc
      rw [halloc] at hfork
      simp only at hfork
      cases hcopy : k₁.curproc.copyuvm k₁.sz with
      | error e =>
        rw [hcopy] at hfork
        cases hfork
      | ok r =>
        obtain ⟨_ | vm, m⟩ := r
        · rw [hcopy] at hfork
          cases hfork
          have hcopies := Machine.copyuvm_copies k₁.sz_le hcopy
          rw [Option.elim_none] at hcopies
          exact hallocated.noTrace hcopies hallocated.slot
        · rw [hcopy] at hfork
          simp only at hfork
          cases hmaps : m.copyMaps vm.user (k₁.slots i).maps with
          | ok s =>
            rw [hmaps] at hfork
            cases hfork
          | error e =>
            cases e with
            | halt e =>
              rw [hmaps] at hfork
              cases hfork
            | failed s => exact absurd ⟨i, k₁, vm, m, s, halloc, hcopy, hmaps⟩ hok

/-! ## When it leaves a trace -/

/-- The frames that `fork` takes before it copies the mappings. -/
def framesBefore (k : System) : Nat := 1 + Machine.uvmFrames k.sz

/-- The page tables that the child has not got then. -/
def Lacks (k : System) (i : Int) : Prop :=
  ¬ (0 ≤ i ∧ i < Machine.uvmTables (Pgdir.userPages k.sz))

instance (k : System) : DecidablePred k.Lacks := fun _ => inferInstanceAs (Decidable (¬ _))

/-- The frames that copying the mappings takes. -/
def mapsFrames (k : System) : Nat :=
  Copying.demand k.curproc.dir k.Lacks (work k.curproc.maps)

/-- There are a slot and the frames to get as far as the mappings, and then there is a page of a
shared, anonymous mapping that the parent has not got, or there are too few frames. -/
structure Leaks (k : System) : Prop where
  slot : ∃ i, (k.slots i).state = .unused
  reaches : k.framesBefore ≤ k.curproc.free.length
  stops : (∃ w ∈ work k.curproc.maps, Copying.Refused k.curproc.dir w) ∨
    k.curproc.free.length < k.framesBefore + k.mapsFrames

/-- What is left when the memory of the process has been copied. -/
theorem Allocated.copied {kstack : Nat} {vm : Vm} {m : Machine} (h : Allocated k k₁ i kstack)
    (hsz : k₁.sz = k.sz) (hcopy : k₁.curproc.copyuvm k₁.sz = .ok (some vm, m)) :
    m.free.length + k.framesBefore = k.curproc.free.length ∧ m.dir = k.curproc.dir ∧
      m.maps = k.curproc.maps ∧ ∀ i, vm.user.table i = none ↔ k.Lacks i := by
  obtain ⟨hcount, htable⟩ := (Machine.copyuvm_counted k₁.sz_le).2 vm m hcopy
  have hcopies := Machine.copyuvm_copies k₁.sz_le hcopy
  rw [hsz] at hcount htable
  refine ⟨?_, hcopies.dir.trans h.dir, hcopies.maps.trans h.maps, htable⟩
  have hfree := congrArg List.length h.free
  rw [List.length_cons] at hfree
  simp only at hcount
  unfold framesBefore Machine.uvmFrames
  omega

theorem allocproc_sz (h : k.allocproc = (some i, k₁)) : k₁.sz = k.sz := by
  unfold allocproc at h
  split at h
  · cases h
  · simp only at h
    split at h
    · cases h
    · cases h
      rfl

/-- `fork` of a process whose mappings are in order, if it returns, fails in `copy_maps` if and only
if there is a page to refuse or too few frames for the mappings. -/
theorem copyFails_iff (htidy : Copying.Tidy k.curproc.maps) {r : Option Int}
    (hfork : k.fork = .ok (r, k')) : CopyFails k ↔ k.Leaks := by
  constructor
  · rintro ⟨i, k₁, vm, m, s, halloc, hcopy, hfails⟩
    obtain ⟨kstack, hallocated⟩ := allocproc_allocated halloc
    obtain ⟨hfree, hdir, hmaps, htable⟩ := hallocated.copied (allocproc_sz halloc) hcopy
    have hstops := (Copying.copyMaps_counted (by rw [hmaps]; exact htidy) htable).2 s hfails
    unfold Copying.Stops at hstops
    rw [hdir, hmaps] at hstops
    refine ⟨⟨i, hallocated.unused⟩, by omega, ?_⟩
    refine hstops.imp_right fun hfew => ?_
    unfold mapsFrames
    omega
  · rintro ⟨⟨i₀, hslot⟩, hreaches, hstops⟩
    unfold fork at hfork
    rcases halloc : k.allocproc with ⟨_ | i, k₁⟩
    · -- there are a slot and a frame
      exfalso
      unfold allocproc at halloc
      split at halloc
      · rename_i hnone
        have hall := List.find?_eq_none.mp hnone i₀ (List.mem_finRange i₀)
        exact hall (decide_eq_true hslot)
      · simp only at halloc
        split at halloc
        · rename_i hempty
          rw [hempty, List.length_nil] at hreaches
          unfold framesBefore at hreaches
          omega
        · cases halloc
    · obtain ⟨kstack, hallocated⟩ := allocproc_allocated halloc
      have hsz := allocproc_sz halloc
      rw [halloc] at hfork
      simp only at hfork
      cases hcopy : k₁.curproc.copyuvm k₁.sz with
      | error e =>
        rw [hcopy] at hfork
        cases hfork
      | ok q =>
        obtain ⟨_ | vm, m⟩ := q
        · exfalso
          have hfew := (Machine.copyuvm_counted k₁.sz_le).1 m hcopy
          have hfree := congrArg List.length hallocated.free
          rw [List.length_cons] at hfree
          rw [hsz] at hfew
          unfold framesBefore at hreaches
          omega
        · rw [hcopy] at hfork
          obtain ⟨hfree, hdir, hmaps, htable⟩ := hallocated.copied hsz hcopy
          have htidy' : Copying.Tidy m.maps := by
            rw [hmaps]
            exact htidy
          cases hcopied : m.copyMaps vm.user (k₁.slots i).maps with
          | ok s =>
            exfalso
            refine (Copying.copyMaps_counted htidy' htable).1 s hcopied ?_
            unfold Copying.Stops
            rw [hdir, hmaps]
            refine hstops.imp_right fun hfew => ?_
            unfold mapsFrames at hfew
            omega
          | error e =>
            cases e with
            | halt e =>
              simp only at hfork
              rw [hcopied] at hfork
              cases hfork
            | failed s => exact ⟨i, k₁, vm, m, s, halloc, hcopy, hcopied⟩

/-- A `fork` that fails leaves no trace if and only if it does not get as far as the mappings, or
there is no page of a shared, anonymous mapping that the parent has not got, and there are frames
enough. -/
theorem failed_fork_iff (k : System) (htidy : Copying.Tidy k.curproc.maps) {r : Option Int}
    (hfork : k.fork = .ok (r, k')) : (r = none → NoTrace k k') ↔ ¬ k.Leaks := by
  rw [← copyFails_iff htidy hfork, ← noTrace_iff]
  constructor
  · intro hnone k'' hfork''
    cases hfork.symm.trans hfork''
    exact hnone rfl
  · rintro hall rfl
    exact hall k' hfork

-- the numerals of `Fin 64`
local instance : NeZero 64 := ⟨by decide⟩

/-- A process of two pages that has mapped one more, private and anonymous, and has touched it, with
67 free frames. -/
def twoPagesMore : System where
  curproc := {
    free := List.range' 1 67
    bytes := fun _ _ => 0
    dir := {
      table := fun i => if i = 0 then some 100 else if i = 0x180 then some 101 else none
      pte := fun p =>
        if p = 0 then some ⟨102, pteW ||| pteU⟩
        else if p = 1 then some ⟨103, pteW ||| pteU⟩
        else if p = 0x60000 then some ⟨104, pteW ||| pteU⟩ else none
      backed := by
        intro p hp
        rw [if_neg, if_neg, if_neg]
        all_goals
          rintro rfl
          cases hp }
    maps := Table.freshTable.next (.ummap 0 4096 protWrite (mapPrivate ||| mapAnonymous) 0 0)
    killed := false
    file := fun _ => ⟨true, true, 0, 0⟩
    data := fun _ => [] }
  sz := 8192
  sz_le := by decide
  slots := fun i => ⟨if i = 0 then .running else .unused, 0, none, none, 0, Table.freshTable⟩
  nextpid := 2

theorem twoPagesMore_tidy : Copying.Tidy twoPagesMore.curproc.maps := by
  have htotal : twoPagesMore.curproc.maps.totalVmas = 1 := by decide +kernel
  have hzero {i : Int} (hi : twoPagesMore.curproc.maps.Live i) : i = 0 := by
    obtain ⟨h0, hlt⟩ := hi
    omega
  refine ⟨⟨by omega, ?_, ?_, ?_, ?_, ?_⟩, ?_, ?_, ?_⟩
  · intro i hi
    rw [hzero hi]
    exact ⟨0x60000, by decide +kernel⟩
  · intro i hi
    rw [hzero hi]
    decide +kernel
  · intro i hi
    rw [hzero hi]
    decide +kernel
  · intro i hi
    rw [hzero hi]
    decide +kernel
  · intro i j hi hj hne
    exact absurd ((hzero hi).trans (hzero hj).symm) hne
  · intro i hi
    rw [hzero hi]
    decide +kernel
  · intro i hi
    rw [hzero hi]
    decide +kernel
  · intro i hi
    rw [hzero hi]
    decide +kernel

/-- The theorem at this process, whose `fork` fails while it copies the memory. -/
theorem failed_fork_iff_two_pages :
    ∃ k', twoPagesMore.fork = .ok (none, k') ∧ NoTrace twoPagesMore k' := by
  have hfails : twoPagesMore.fork.toOption.map Prod.fst = some none := by decide +kernel
  cases hfork : twoPagesMore.fork with
  | error e =>
    rw [hfork] at hfails
    cases hfails
  | ok q =>
    obtain ⟨r, k'⟩ := q
    rw [hfork] at hfails
    obtain rfl : r = none := Option.some.inj hfails
    refine ⟨k', rfl, (failed_fork_iff twoPagesMore twoPagesMore_tidy hfork).mpr ?_ rfl⟩
    intro hleaks
    have hfew : ¬ twoPagesMore.framesBefore ≤ twoPagesMore.curproc.free.length := by decide +kernel
    exact hfew hleaks.reaches

/-- A process of no memory that has mapped one page, shared and anonymous, and has not touched it. -/
def sharedUntouched : System where
  curproc := {
    free := List.range' 1 80
    bytes := fun _ _ => 0
    dir := Copying.noPages
    maps := Table.freshTable.next (.ummap 0 4096 protWrite (mapShared ||| mapAnonymous) 0 0)
    killed := false
    file := fun _ => ⟨true, true, 0, 0⟩
    data := fun _ => [] }
  sz := 0
  sz_le := by decide
  slots := fun i => ⟨if i = 0 then .running else .unused, 0, none, none, 0, Table.freshTable⟩
  nextpid := 2

/-- Its `fork` fails and leaves 13 frames of 80, and a page in the parent. -/
theorem failed_fork_leaks :
    ¬ ∀ k k' : System, k.fork = .ok (none, k') → NoTrace k k' := by
  intro hall
  have hfork : (sharedUntouched.fork).toOption.map (fun r => (r.1, r.2.curproc.free.length)) =
      some (none, 13) := by decide +kernel
  cases h : sharedUntouched.fork with
  | error e =>
    rw [h] at hfork
    cases hfork
  | ok r =>
    obtain ⟨pid, k'⟩ := r
    rw [h] at hfork
    simp only [Except.toOption, Option.map_some, Option.some.injEq, Prod.mk.injEq] at hfork
    obtain ⟨rfl, hlength⟩ := hfork
    have hsame := (hall sharedUntouched k' h).free.length_eq
    rw [hlength] at hsame
    exact absurd hsame (by decide)

end System

end Cs537.P5
