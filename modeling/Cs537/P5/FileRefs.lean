import Cs537.Lib.Run
import Cs537.Lib.Tally
import Cs537.P5.Fork
import Cs537.P5.LiveFiles
import Mathlib.Data.Int.Range

/-!
# References to files

A `struct file` counts its references. Descriptors are counted by `filedup` and `fileclose`
(`file.c:43-80`), in `fork`, `close` and `exit`; a mapping is counted by the `filedup` of `sys_mmap`
(`sysfile.c:447-466`). But that comes before `ummap`, which may fail, neither `umunmap` nor `exit`
has a `fileclose` for a mapping, and `fork` duplicates the file of a mapping only if the entry is
`in_use`, which nothing sets. Where none of that happens, the counts stay right. What `fileclose`
does with a file that has no reference left is not modelled.
-/

namespace Cs537.P5

open Cs537.Lib

/-- The fields of `struct proc` that hold files. -/
structure Task where
  alive : Bool
  ofile : Fin 16 → UInt32
  maps : Table

/-- `ref` of every `struct file`, by address, and the process table. -/
structure Files where
  ref : UInt32 → Int
  procs : Fin 64 → Task

/-- `filedup` (`file.c:43-53`). -/
def filedup (ref : UInt32 → Int) (f : UInt32) : Except Stop (UInt32 → Int) :=
  if ref f < 1 then .error .panic else .ok (Function.update ref f (ref f + 1))

/-- `fileclose` (`file.c:55-80`), as far as the count goes. -/
def fileclose (ref : UInt32 → Int) (f : UInt32) : Except Stop (UInt32 → Int) :=
  if ref f < 1 then .error .panic else .ok (Function.update ref f (ref f - 1))

/-- The files that a process holds: those of its descriptors and those of its live mappings. -/
def Task.held (t : Task) : List UInt32 := List.ofFn t.ofile ++ t.maps.liveFiles

/-- `argfd` (`sysfile.c:22-37`). -/
def Task.argfd (t : Task) (fd : Int) : Option (Fin 16) :=
  if h : 0 ≤ fd ∧ fd < 16 then
    let fd : Fin 16 := ⟨fd.toNat, by omega⟩
    if t.ofile fd = 0 then none else some fd
  else none

namespace Files

/-- The process table with one process changed. -/
def setTask (k : Files) (p : Fin 64) (t : Task) : Files :=
  { k with procs := Function.update k.procs p t }

/-- `sys_mmap` (`sysfile.c:447-466`) of process `p`: the result and the files. -/
def sysMmap (k : Files) (p : Fin 64) (addr length : Int) (prot flags : UInt32) (fd offset : Int) :
    Except Stop (Int × Files) :=
  let t := k.procs p
  match t.argfd fd with
  | none =>
    if has flags mapAnonymous then
      let r := t.maps.ummap (i32 addr) (i32 length) prot flags offset 0
      .ok (r.1, k.setTask p { t with maps := r.2 })
    else .ok (-1, k)
  | some fd =>
    match filedup k.ref (t.ofile fd) with
    | .error e => .error e
    | .ok ref =>
      let r := t.maps.ummap (i32 addr) (i32 length) prot flags offset (t.ofile fd)
      .ok (r.1, { k with ref := ref }.setTask p { t with maps := r.2 })

/-- `sys_munmap` (`sysproc.c:108-117`). -/
def sysMunmap (k : Files) (p : Fin 64) (addr length filewrite : Int) : Int × Files :=
  let t := k.procs p
  let r := t.maps.umunmap (i32 addr) (i32 length) filewrite
  (r.1, k.setTask p { t with maps := r.2.1 })

/-- Clears a descriptor of process `p` and closes its file, as `close` and the loop of `exit` do. -/
def closeFd (p : Fin 64) (k : Files) (fd : Fin 16) : Except Stop Files :=
  let t := k.procs p
  if t.ofile fd = 0 then .ok k
  else
    match fileclose k.ref (t.ofile fd) with
    | .error e => .error e
    | .ok ref =>
      .ok ({ k with ref := ref }.setTask p { t with ofile := Function.update t.ofile fd 0 })

/-- `sys_close` (`sysfile.c:94-105`). -/
def sysClose (k : Files) (p : Fin 64) (fd : Int) : Except Stop (Int × Files) :=
  match (k.procs p).argfd fd with
  | none => .ok (-1, k)
  | some fd =>
    match k.closeFd p fd with
    | .error e => .error e
    | .ok k => .ok (0, k)

/-- `exit` (`proc.c:244-287`): the descriptors, then the mappings. -/
def exit (k : Files) (p : Fin 64) (filewrite : Nat → Int) : Except Stop Files :=
  match (List.finRange 16).foldlM (closeFd p) k with
  | .error e => .error e
  | .ok k =>
    let t := k.procs p
    .ok (k.setTask p { t with alive := false, maps := t.maps.clearMaps filewrite })

/-- The loop of `fork` over the entries in use (`proc.c:216-221`), for entry `i`. -/
def dupMapping (t : Table) (ref : UInt32 → Int) (i : Nat) : Except Stop (UInt32 → Int) :=
  if (t.vmas i).inUse ≠ 0 then filedup ref (t.vmas i).file else .ok ref

/-- The loop of `fork` over the descriptors (`proc.c:223-225`), for descriptor `fd`. -/
def dupFd (t : Task) (s : (UInt32 → Int) × (Fin 16 → UInt32)) (fd : Fin 16) :
    Except Stop ((UInt32 → Int) × (Fin 16 → UInt32)) :=
  if t.ofile fd = 0 then .ok s
  else
    match filedup s.1 (t.ofile fd) with
    | .error e => .error e
    | .ok ref => .ok (ref, Function.update s.2 fd (t.ofile fd))

/-- `fork` (`proc.c:182-239`) that gets through to its end, in the slot `child`. -/
def fork (k : Files) (p child : Fin 64) : Except Stop Files :=
  let t := k.procs p
  let np := k.procs child
  match (List.range t.maps.totalVmas.toNat).foldlM (dupMapping t.maps) k.ref with
  | .error e => .error e
  | .ok ref =>
    match (List.finRange 16).foldlM (dupFd t) (ref, np.ofile) with
    | .error e => .error e
    | .ok (ref, ofile) =>
      .ok ({ k with ref := ref }.setTask child
        { alive := true, ofile := ofile, maps := copyTable t.maps np.maps.allocproc })

/-! ## Runs -/

/-- What happens to the files and the process table. Of a `fork` that fails, something may be left
in the entries of the slot; a page fault may change an entry; and the memory before and behind a
table changes at any time. -/
inductive Syscall where
  | mmap (p : Fin 64) (addr length : Int) (prot flags : UInt32) (fd offset : Int)
  | munmap (p : Fin 64) (addr length filewrite : Int)
  | close (p : Fin 64) (fd : Int)
  | exit (p : Fin 64) (filewrite : Nat → Int)
  | fork (p child : Fin 64)
  | forkFails (p child : Fin 64) (vmas : Int → Vma)
  | pgft (p : Fin 64) (faultAddr : Int) (present : Bool)
  | ofile (p : Fin 64) (below : Vma)
  | neighbour (p : Fin 64) (above : Table.Neighbour)

/-- Only a living process makes calls, and only the slot of a dead one is reused. -/
def enabled (k : Files) : Syscall → Bool
  | .mmap p .. | .munmap p .. | .close p _ | .exit p _ | .pgft p .. => (k.procs p).alive
  | .fork p child | .forkFails p child _ => (k.procs p).alive && !(k.procs child).alive
  | .ofile .. | .neighbour .. => true

/-- The table of a process after a change that is not a call. -/
def other (k : Files) (p : Fin 64) (c : Table.Call) : Files :=
  k.setTask p { k.procs p with maps := (k.procs p).maps.next c }

/-- The state after an event. -/
def next (k : Files) : Syscall → Except Stop Files
  | .mmap p addr length prot flags fd offset =>
    (k.sysMmap p addr length prot flags fd offset).map (·.2)
  | .munmap p addr length filewrite => .ok (k.sysMunmap p addr length filewrite).2
  | .close p fd => (k.sysClose p fd).map (·.2)
  | .exit p filewrite => k.exit p filewrite
  | .fork p child => k.fork p child
  | .forkFails _ child vmas =>
    .ok (k.setTask child { k.procs child with maps := { vmas := vmas, totalVmas := 0 } })
  | .pgft p faultAddr present => .ok (k.other p (.pgft faultAddr present))
  | .ofile p below => .ok (k.other p (.ofile below))
  | .neighbour p above => .ok (k.other p (.neighbour above))

/-- The steps of the system; a panic ends it. -/
def step (k : Files) (c : Syscall) : Option Files :=
  if k.enabled c then (k.next c).toOption else none

/-! ## The property -/

/-- `ref` of every file is the number of descriptors that name it plus the number of live mappings
that hold it. -/
def Balanced (k : Files) : Prop := Tally (· ≠ 0) k.ref fun p => (k.procs p).held

/-- What a process slot always satisfies. -/
structure TaskOk (t : Task) : Prop where
  nonneg : 0 ≤ t.maps.totalVmas
  le : t.maps.totalVmas ≤ 32
  closed : t.alive = false → ∀ fd, t.ofile fd = 0
  unmapped : t.alive = false → t.maps.totalVmas = 0

/-- The invariant of the runs. -/
structure Inv (k : Files) : Prop where
  balanced : k.Balanced
  tasks : ∀ p, TaskOk (k.procs p)

/-- The steps that keep the counts: `sys_mmap` with a descriptor finds a place for the mapping, and
moves no entries in vain in any case; what is unmapped altogether is a live mapping without a file,
and no live entry behind it has address 0; a process that forks has a file exactly in the live
mappings that are `in_use`; and one that exits has none in its mappings. -/
def Careful (k : Files) : Syscall → Prop
  | .mmap p addr length _ flags fd _ =>
    let t := (k.procs p).maps
    (((k.procs p).argfd fd).isSome →
      t.Reaches (i32 addr) (i32 length) flags ∧ t.HasPlace (i32 addr) (i32 length) flags) ∧
    (((k.procs p).argfd fd).isSome ∨ has flags mapAnonymous →
      t.Reaches (i32 addr) (i32 length) flags → t.Tidy (i32 addr) (i32 length) flags)
  | .munmap p addr length filewrite =>
    let t := (k.procs p).maps
    ∀ i ∈ t.findVma (u32 (pgroundup (i32 addr))), t.Removes (i32 addr) (i32 length) filewrite i →
      i < t.totalVmas ∧ (t.vmas i).file = 0 ∧
        ∀ j, i + 1 ≤ j → j < t.totalVmas → (t.vmas j).addr ≠ 0
  | .fork p _ =>
    let t := (k.procs p).maps
    ∀ v ∈ entries t.vmas t.totalVmas, v.inUse ≠ 0 ↔ v.file ≠ 0
  | .exit p _ => ∀ f ∈ (k.procs p).maps.liveFiles, f = 0
  | _ => True

/-! ## One process changes -/

variable {k k' : Files} {p : Fin 64} {t : Task}

/-- A process changes, and the counts by as much as what it holds. -/
theorem Inv.setTask (h : k.Inv) (ref : UInt32 → Int) (hok : TaskOk t)
    (hchange : ∀ f, f ≠ 0 → ref f - k.ref f = t.held.count f - (k.procs p).held.count f) :
    ({ k with ref := ref }.setTask p t).Inv := by
  constructor
  · have htally := h.balanced.update p hchange
    unfold Balanced Files.setTask
    have heq : (fun q => (Function.update k.procs p t q).held) =
        Function.update (fun q => (k.procs q).held) p t.held := by
      funext q
      by_cases hq : q = p
      · rw [hq, Function.update_self, Function.update_self]
      · rw [Function.update_of_ne hq, Function.update_of_ne hq]
    simp only [heq]
    exact htally
  · intro q
    unfold Files.setTask
    simp only
    by_cases hq : q = p
    · rw [hq, Function.update_self]
      exact hok
    · rw [Function.update_of_ne hq]
      exact h.tasks q

/-- The mappings of a process change, and the counts by as much as the files of the live ones. -/
theorem Inv.setMaps (h : k.Inv) (ref : UInt32 → Int) {maps : Table} (h0 : 0 ≤ maps.totalVmas)
    (hle : maps.totalVmas ≤ 32) (hdead : (k.procs p).alive = false → maps.totalVmas = 0)
    (hchange : ∀ f, f ≠ 0 →
      ref f - k.ref f = maps.liveFiles.count f - (k.procs p).maps.liveFiles.count f) :
    ({ k with ref := ref }.setTask p { k.procs p with maps := maps }).Inv := by
  refine h.setTask ref ⟨h0, hle, (h.tasks p).closed, hdead⟩ ?_
  intro f hf
  have := hchange f hf
  simp only [Task.held, List.count_append, Nat.cast_add]
  omega

/-- The mappings of a process change without their files. -/
theorem Inv.setMaps_same (h : k.Inv) {maps : Table} (h0 : 0 ≤ maps.totalVmas)
    (hle : maps.totalVmas ≤ 32) (hdead : (k.procs p).alive = false → maps.totalVmas = 0)
    (hsame : ∀ f, f ≠ 0 → maps.liveFiles.count f = (k.procs p).maps.liveFiles.count f) :
    (k.setTask p { k.procs p with maps := maps }).Inv := by
  refine h.setMaps k.ref h0 hle hdead ?_
  intro f hf
  rw [hsame f hf]
  omega

/-- A file that a descriptor names has a reference. -/
theorem Inv.pos_of_ofile (h : k.Inv) {fd : Fin 16} (hfd : (k.procs p).ofile fd ≠ 0) :
    1 ≤ k.ref ((k.procs p).ofile fd) :=
  h.balanced.pos hfd (i := p) (List.mem_append_left _ (List.mem_ofFn.mpr ⟨fd, rfl⟩))

/-- So has a file that a live mapping holds. -/
theorem Inv.pos_of_liveFiles (h : k.Inv) {f : UInt32} (hf : f ≠ 0)
    (hmem : f ∈ (k.procs p).maps.liveFiles) : 1 ≤ k.ref f :=
  h.balanced.pos hf (i := p) (List.mem_append_right _ hmem)

theorem filedup_ok {ref : UInt32 → Int} {f : UInt32} (h : 1 ≤ ref f) :
    filedup ref f = .ok (Function.update ref f (ref f + 1)) :=
  if_neg (by omega)

theorem fileclose_ok {ref : UInt32 → Int} {f : UInt32} (h : 1 ≤ ref f) :
    fileclose ref f = .ok (Function.update ref f (ref f - 1)) :=
  if_neg (by omega)

theorem argfd_ne {fd : Int} {i : Fin 16} (h : t.argfd fd = some i) : t.ofile i ≠ 0 := by
  unfold Task.argfd at h
  split at h
  · simp only at h
    split at h
    · cases h
    · rename_i hne
      cases h
      exact hne
  · cases h

/-- A process that lives may map what it likes. -/
theorem unmapped_of_alive (halive : t.alive = true) (maps : Table) (hdead : t.alive = false) :
    maps.totalVmas = 0 := by
  rw [halive] at hdead
  cases hdead

/-! ## The calls -/

/-- `sys_mmap` that is careful. -/
theorem Inv.sysMmap (h : k.Inv) {addr length : Int} {prot flags : UInt32} {fd offset : Int}
    (halive : (k.procs p).alive = true)
    (hcareful : k.Careful (.mmap p addr length prot flags fd offset)) :
    ∃ r, k.sysMmap p addr length prot flags fd offset = .ok r ∧ r.2.Inv := by
  obtain ⟨hplace, htidy⟩ := hcareful
  have hok := h.tasks p
  have hdead {maps : Table} := unmapped_of_alive halive maps
  unfold Files.sysMmap
  simp only
  cases hfd : (k.procs p).argfd fd with
  | none =>
    rw [hfd] at htidy
    by_cases hanon : has flags mapAnonymous = true
    · simp only [if_pos hanon]
      refine ⟨_, rfl, ?_⟩
      rcases Table.ummap_liveFiles prot offset 0 hok.nonneg (htidy (.inr hanon)) with
        ⟨hsame, -⟩ | ⟨hroom, htotal, hperm⟩
      · refine h.setMaps_same ?_ ?_ hdead ?_
        · rw [hsame]
          exact hok.nonneg
        · rw [hsame]
          exact hok.le
        · intro f _
          rw [hsame]
      · have h0 := hok.nonneg
        refine h.setMaps_same (by omega) (by omega) hdead ?_
        intro f hf
        rw [hperm.count_eq, List.count_cons_of_ne hf.symm]
    · simp only [if_neg hanon]
      exact ⟨_, rfl, h⟩
  | some i =>
    rw [hfd] at htidy hplace
    have hne := argfd_ne hfd
    simp only [filedup_ok (h.pos_of_ofile hne)]
    refine ⟨_, rfl, ?_⟩
    rcases Table.ummap_liveFiles prot offset ((k.procs p).ofile i) hok.nonneg (htidy (.inl rfl))
      with ⟨-, hnone⟩ | ⟨hroom, htotal, hperm⟩
    · exact absurd (hplace rfl) hnone
    · have h0 := hok.nonneg
      refine h.setMaps _ (by omega) (by omega) hdead ?_
      intro f hf
      rw [hperm.count_eq, List.count_cons]
      by_cases hfi : f = (k.procs p).ofile i
      · subst hfi
        rw [Function.update_self, if_pos (beq_self_eq_true _)]
        omega
      · rw [Function.update_of_ne hfi, if_neg (by simpa using fun h => hfi h.symm)]
        omega

/-- `sys_munmap` that is careful. -/
theorem Inv.sysMunmap (h : k.Inv) {addr length filewrite : Int} (halive : (k.procs p).alive = true)
    (hcareful : k.Careful (.munmap p addr length filewrite)) :
    (k.sysMunmap p addr length filewrite).2.Inv := by
  have hok := h.tasks p
  have h0 := hok.nonneg
  have hle := hok.le
  have hdead {maps : Table} := unmapped_of_alive halive maps
  have hcond (i : Int) (hremoves : (k.procs p).maps.Removes (i32 addr) (i32 length) filewrite i) :=
    hcareful i hremoves.found hremoves
  rcases Table.umunmap_liveFiles hle fun i hremoves => ⟨(hcond i hremoves).1, fun j h1 h2 =>
      (hcond i hremoves).2.2 j (by omega) h2⟩ with
    ⟨htotal, hsame⟩ | ⟨i, hremoves, hi, hlive, htotal, hperm⟩
  · refine h.setMaps_same (by omega) (by omega) hdead ?_
    intro f _
    rw [hsame]
  · obtain ⟨-, hfile, -⟩ := hcond i hremoves
    refine h.setMaps_same (by omega) (by omega) hdead ?_
    intro f hf
    rw [hperm.count_eq, hfile, List.count_cons_of_ne hf.symm]

/-- Closing a descriptor. -/
theorem Inv.closeFd (h : k.Inv) (p : Fin 64) (fd : Fin 16) :
    ∃ k', k.closeFd p fd = .ok k' ∧ k'.Inv ∧ (k'.procs p).maps = (k.procs p).maps ∧
      (k'.procs p).ofile fd = 0 ∧ ∀ g, (k.procs p).ofile g = 0 → (k'.procs p).ofile g = 0 := by
  unfold Files.closeFd
  simp only
  by_cases hfd : (k.procs p).ofile fd = 0
  · rw [if_pos hfd]
    exact ⟨k, rfl, h, rfl, hfd, fun _ hg => hg⟩
  · rw [if_neg hfd]
    simp only [fileclose_ok (h.pos_of_ofile hfd)]
    have hzero (g : Fin 16) (hg : (k.procs p).ofile g = 0) :
        Function.update (k.procs p).ofile fd 0 g = 0 := by
      by_cases hgf : g = fd
      · rw [hgf, Function.update_self]
      · rw [Function.update_of_ne hgf, hg]
    have hok := h.tasks p
    refine ⟨_, rfl, h.setTask _ ⟨hok.nonneg, hok.le, ?_, hok.unmapped⟩ ?_, ?_, ?_, ?_⟩
    · intro hdead g
      exact hzero g (hok.closed hdead g)
    · intro f hf
      simp only [Task.held, List.count_append, Nat.cast_add, count_ofFn_update, if_neg hf.symm]
      by_cases hff : f = (k.procs p).ofile fd
      · subst hff
        rw [Function.update_self, if_pos rfl]
        omega
      · rw [Function.update_of_ne hff, if_neg fun h => hff h.symm]
        omega
    · simp only [Files.setTask, Function.update_self]
    · simp only [Files.setTask, Function.update_self]
    · intro g hg
      simp only [Files.setTask, Function.update_self]
      exact hzero g hg

/-- `sys_close`. -/
theorem Inv.sysClose (h : k.Inv) (p : Fin 64) (fd : Int) :
    ∃ r, k.sysClose p fd = .ok r ∧ r.2.Inv := by
  unfold Files.sysClose
  cases (k.procs p).argfd fd with
  | none => exact ⟨_, rfl, h⟩
  | some i =>
    obtain ⟨k', hclose, hinv, -⟩ := h.closeFd p i
    simp only [hclose]
    exact ⟨_, rfl, hinv⟩

/-- The loop of `exit` closes all descriptors. -/
theorem Inv.closeAll (h : k.Inv) (p : Fin 64) :
    ∃ k', (List.finRange 16).foldlM (Files.closeFd p) k = .ok k' ∧ k'.Inv ∧
      (k'.procs p).maps = (k.procs p).maps ∧ ∀ fd, (k'.procs p).ofile fd = 0 := by
  obtain ⟨k', hloop, hinv, hmaps, hclosed⟩ := foldlM_ok (f := Files.closeFd p)
    (l := List.finRange 16) (s := k)
    (fun fds k' => k'.Inv ∧ (k'.procs p).maps = (k.procs p).maps ∧
      ∀ fd, fd ∉ fds → (k'.procs p).ofile fd = 0)
    ⟨h, rfl, fun fd hfd => absurd (List.mem_finRange fd) hfd⟩
    (by
      rintro fd fds t ⟨hinv, hmaps, hclosed⟩
      obtain ⟨t', hclose, hinv', hmaps', hfd, hkeep⟩ := hinv.closeFd p fd
      refine ⟨t', hclose, hinv', hmaps'.trans hmaps, ?_⟩
      intro g hg
      by_cases hgf : g = fd
      · rw [hgf, hfd]
      · refine hkeep g (hclosed g ?_)
        intro hmem
        rcases List.mem_cons.mp hmem with heq | hmem
        · exact hgf heq
        · exact hg hmem)
  exact ⟨k', hloop, hinv, hmaps, fun fd => hclosed fd List.not_mem_nil⟩

/-- `exit` that is careful. -/
theorem Inv.exit (h : k.Inv) {filewrite : Nat → Int} (hcareful : k.Careful (.exit p filewrite)) :
    ∃ k', k.exit p filewrite = .ok k' ∧ k'.Inv := by
  obtain ⟨k', hloop, hinv, hmaps, hclosed⟩ := h.closeAll p
  unfold Files.exit
  simp only [hloop]
  refine ⟨_, rfl, hinv.setTask k'.ref ?_ ?_⟩
  · exact ⟨Int.le_refl 0, (by decide : (0 : Int) ≤ 32), fun _ => hclosed, fun _ => rfl⟩
  · intro f hf
    have hnone : (k'.procs p).maps.liveFiles.count f = 0 := by
      rw [hmaps]
      refine List.count_eq_zero.mpr ?_
      intro hmem
      exact hf (hcareful f hmem)
    have hempty : ((k'.procs p).maps.clearMaps filewrite).liveFiles = [] := rfl
    simp only [Task.held, List.count_append, hnone, hempty, List.count_nil]
    omega

/-- The files of the mappings of a child. -/
theorem liveFiles_copyTable (t slot : Table) : (copyTable t slot).liveFiles = t.liveFiles := by
  refine entries_congr ?_
  intro i h0 hi
  unfold copyTable at hi ⊢
  simp only at hi ⊢
  rw [if_pos ⟨h0, hi⟩]
  unfold inherit
  split
  · rfl
  · split <;> rfl

/-- The loop of `fork` over the entries in use counts the files of the mappings. -/
theorem dupMapping_loop (t : Table) (is : List Nat) (ref : UInt32 → Int)
    (huse : ∀ i ∈ is, (t.vmas i).inUse ≠ 0 ↔ (t.vmas i).file ≠ 0)
    (hpos : ∀ i ∈ is, (t.vmas i).file ≠ 0 → 1 ≤ ref (t.vmas i).file) :
    ∃ ref', is.foldlM (dupMapping t) ref = .ok ref' ∧
      ∀ f, f ≠ 0 → ref' f = ref f + (is.map fun (i : Nat) => (t.vmas i).file).count f := by
  induction is generalizing ref with
  | nil => exact ⟨ref, rfl, fun f _ => by simp⟩
  | cons i is ih =>
    have huse' := fun j hj => huse j (List.mem_cons_of_mem i hj)
    have hpos' := fun j hj => hpos j (List.mem_cons_of_mem i hj)
    by_cases hfile : (t.vmas i).file = 0
    · have hunused : ¬ (t.vmas i).inUse ≠ 0 := fun h => (huse i List.mem_cons_self).mp h hfile
      obtain ⟨ref', hloop, hcount⟩ := ih ref huse' hpos'
      refine ⟨ref', foldlM_cons_ok.mpr ⟨ref, if_neg hunused, hloop⟩, ?_⟩
      intro f hf
      rw [hcount f hf, List.map_cons, hfile, List.count_cons_of_ne hf.symm]
    · have hused := (huse i List.mem_cons_self).mpr hfile
      have hdup := filedup_ok (hpos i List.mem_cons_self hfile)
      obtain ⟨ref', hloop, hcount⟩ :=
        ih (Function.update ref (t.vmas i).file (ref (t.vmas i).file + 1)) huse' (by
          intro j hj hfj
          have := hpos' j hj hfj
          by_cases heq : (t.vmas j).file = (t.vmas i).file
          · rw [heq] at this ⊢
            rw [Function.update_self]
            omega
          · rwa [Function.update_of_ne heq])
      refine ⟨ref', foldlM_cons_ok.mpr ⟨_, (if_pos hused).trans hdup, hloop⟩, ?_⟩
      intro f hf
      rw [hcount f hf, List.map_cons, List.count_cons]
      by_cases heq : f = (t.vmas i).file
      · rw [heq, Function.update_self, if_pos (beq_self_eq_true _)]
        omega
      · rw [Function.update_of_ne heq, if_neg (by simpa using fun h => heq h.symm)]
        omega

/-- The loop of `fork` over the descriptors counts those that it sets. -/
theorem dupFd_loop (t : Task) (fds : List (Fin 16)) {s : (UInt32 → Int) × (Fin 16 → UInt32)}
    (hnodup : fds.Nodup) (hempty : ∀ fd ∈ fds, s.2 fd = 0)
    (hpos : ∀ fd ∈ fds, t.ofile fd ≠ 0 → 1 ≤ s.1 (t.ofile fd)) :
    ∃ s', fds.foldlM (dupFd t) s = .ok s' ∧ ∀ f, f ≠ 0 →
      s'.1 f - s.1 f = (List.ofFn s'.2).count f - (List.ofFn s.2).count f := by
  induction fds generalizing s with
  | nil => exact ⟨s, rfl, fun f _ => by omega⟩
  | cons fd fds ih =>
    obtain ⟨hfresh, hnodup⟩ := List.nodup_cons.mp hnodup
    have hempty' := fun g hg => hempty g (List.mem_cons_of_mem fd hg)
    have hpos' := fun g hg => hpos g (List.mem_cons_of_mem fd hg)
    by_cases hfd : t.ofile fd = 0
    · obtain ⟨s', hloop, hcount⟩ := ih hnodup hempty' hpos'
      exact ⟨s', foldlM_cons_ok.mpr ⟨s, if_pos hfd, hloop⟩, hcount⟩
    · have hdup := filedup_ok (hpos fd List.mem_cons_self hfd)
      obtain ⟨s', hloop, hcount⟩ :=
        ih (s := (Function.update s.1 (t.ofile fd) (s.1 (t.ofile fd) + 1),
            Function.update s.2 fd (t.ofile fd))) hnodup
          (by
            intro g hg
            have hne : g ≠ fd := by
              rintro rfl
              exact hfresh hg
            simp only
            rw [Function.update_of_ne hne]
            exact hempty' g hg)
          (by
            intro g hg hfg
            have := hpos' g hg hfg
            simp only
            by_cases heq : t.ofile g = t.ofile fd
            · rw [heq] at this ⊢
              rw [Function.update_self]
              omega
            · rwa [Function.update_of_ne heq])
      refine ⟨s', foldlM_cons_ok.mpr ⟨_, ?_, hloop⟩, ?_⟩
      · unfold dupFd
        rw [if_neg hfd, hdup]
      · intro f hf
        have hafter := hcount f hf
        simp only [count_ofFn_update, hempty fd List.mem_cons_self, if_neg hf.symm] at hafter
        by_cases heq : f = t.ofile fd
        · rw [heq] at hafter ⊢
          rw [Function.update_self, if_pos rfl] at hafter
          omega
        · rw [Function.update_of_ne heq, if_neg fun h => heq h.symm] at hafter
          omega

/-- `fork` that is careful. -/
theorem Inv.fork (h : k.Inv) {child : Fin 64} (hdead : (k.procs child).alive = false)
    (hcareful : k.Careful (.fork p child)) : ∃ k', k.fork p child = .ok k' ∧ k'.Inv := by
  have hok := h.tasks p
  have hclosed := (h.tasks child).closed hdead
  have hmem {i : Nat} (hi : i ∈ List.range (k.procs p).maps.totalVmas.toNat) :
      ((k.procs p).maps.vmas i).file ∈ (k.procs p).maps.liveFiles :=
    List.mem_map.mpr ⟨i, hi, rfl⟩
  obtain ⟨ref, hmaps, hcount⟩ := dupMapping_loop (k.procs p).maps
    (List.range (k.procs p).maps.totalVmas.toNat) k.ref
    (fun i hi => hcareful _ (List.mem_map.mpr ⟨i, hi, rfl⟩))
    (fun i hi hfile => h.pos_of_liveFiles hfile (hmem hi))
  obtain ⟨s, hfds, hcount'⟩ := dupFd_loop (k.procs p) (List.finRange 16)
    (s := (ref, (k.procs child).ofile)) (List.nodup_finRange 16) (fun fd _ => hclosed fd)
    (by
      intro fd _ hfd
      have := h.pos_of_ofile hfd
      simp only
      rw [hcount _ hfd]
      omega)
  unfold Files.fork
  simp only [hmaps, hfds]
  have hborn : TaskOk ⟨true, s.2, copyTable (k.procs p).maps (k.procs child).maps.allocproc⟩ :=
    ⟨hok.nonneg, hok.le, fun h => absurd h Bool.noConfusion, fun h => absurd h Bool.noConfusion⟩
  refine ⟨_, rfl, h.setTask _ hborn ?_⟩
  intro f hf
  have hmapped := hcount f hf
  have hopened := hcount' f hf
  have hunmapped : (k.procs child).maps.liveFiles = [] := by
    unfold Table.liveFiles entries
    rw [(h.tasks child).unmapped hdead]
    rfl
  have hlive : (List.map (fun (i : Nat) => ((k.procs p).maps.vmas i).file)
      (List.range (k.procs p).maps.totalVmas.toNat)) = (k.procs p).maps.liveFiles := rfl
  rw [hlive] at hmapped
  simp only [Task.held, List.count_append, Nat.cast_add, liveFiles_copyTable, hunmapped,
    List.count_nil] at hopened ⊢
  omega

/-- A change that is not a call leaves the files of the live mappings alone. -/
theorem Inv.other (h : k.Inv) {c : Table.Call}
    (htotal : ((k.procs p).maps.next c).totalVmas = (k.procs p).maps.totalVmas)
    (hfiles : ∀ i, 0 ≤ i → i < 32 →
      (((k.procs p).maps.next c).vmas i).file = ((k.procs p).maps.vmas i).file) :
    (k.other p c).Inv := by
  have hok := h.tasks p
  have hle := hok.le
  refine h.setMaps_same ?_ ?_ ?_ ?_
  · rw [htotal]
    exact hok.nonneg
  · rw [htotal]
    exact hle
  · rw [htotal]
    exact hok.unmapped
  · intro f _
    unfold Table.liveFiles
    rw [htotal, entries_congr fun i h0 hi => hfiles i h0 (by omega)]

/-- A careful step does not panic, and it keeps the counts. -/
theorem Inv.next (h : k.Inv) {c : Syscall} (henabled : k.enabled c = true) (hcareful : k.Careful c) :
    ∃ k', k.next c = .ok k' ∧ k'.Inv := by
  cases c with
  | mmap p addr length prot flags fd offset =>
    obtain ⟨r, hr, hinv⟩ := h.sysMmap henabled hcareful
    exact ⟨r.2, by rw [Files.next, hr]; rfl, hinv⟩
  | munmap p addr length filewrite => exact ⟨_, rfl, h.sysMunmap henabled hcareful⟩
  | close p fd =>
    obtain ⟨r, hr, hinv⟩ := h.sysClose p fd
    exact ⟨r.2, by rw [Files.next, hr]; rfl, hinv⟩
  | exit p filewrite => exact h.exit hcareful
  | fork p child =>
    simp only [enabled, Bool.and_eq_true, Bool.not_eq_true'] at henabled
    exact h.fork henabled.2 hcareful
  | forkFails p child vmas =>
    simp only [enabled, Bool.and_eq_true, Bool.not_eq_true'] at henabled
    have hunmapped := (h.tasks child).unmapped henabled.2
    refine ⟨_, rfl, h.setMaps_same (Int.le_refl 0) (by decide : (0 : Int) ≤ 32) (fun _ => rfl) ?_⟩
    intro f _
    unfold Table.liveFiles entries
    rw [hunmapped]
    rfl
  | pgft p faultAddr present =>
    obtain ⟨htotal, hfiles⟩ := Table.pgftHandler_files (k.procs p).maps (u32 faultAddr) present
    exact ⟨_, rfl, h.other htotal fun i _ _ => hfiles i⟩
  | ofile p below =>
    refine ⟨_, rfl, h.other rfl ?_⟩
    intro i h0 _
    simp only [Table.next, Table.set]
    rw [Function.update_of_ne (by omega)]
  | neighbour p above =>
    refine ⟨_, rfl, h.other rfl ?_⟩
    intro i _ hi
    simp only [Table.next, Table.set]
    rw [Function.update_of_ne (by omega)]

/-- In every run whose steps are all careful, from files whose counts are right, `ref` of every file
is the number of descriptors plus the number of live mappings that hold it. -/
theorem refs_balanced {cs : List Syscall} (hstart : k.Inv)
    (run : Run (guarded Careful (stepOf step)) k cs k') : k'.Balanced := by
  refine (run.invariant Inv hstart ?_).balanced
  rintro k c k' hinv ⟨hcareful, hstep⟩
  have henabled : k.enabled c = true := by
    by_contra hdisabled
    rw [stepOf, step, if_neg hdisabled] at hstep
    cases hstep
  obtain ⟨k₁, hnext, hinv₁⟩ := hinv.next henabled hcareful
  rw [stepOf, step, if_pos henabled, hnext] at hstep
  cases hstep
  exact hinv₁

/-- No process and no open file. -/
def noFiles : Files where
  ref _ := 0
  procs _ := ⟨false, fun _ => 0, Table.freshTable⟩

theorem noFiles_inv : noFiles.Inv := by
  constructor
  · intro f hf
    refine (Finset.sum_eq_zero ?_).symm
    intro p _
    have hnone : f ∉ (noFiles.procs p).held := by
      intro hmem
      rcases List.mem_append.mp hmem with hmem | hmem
      · obtain ⟨fd, hfd⟩ := List.mem_ofFn.mp hmem
        exact hf hfd.symm
      · cases hmem
    rw [List.count_eq_zero.mpr hnone]
    rfl
  · intro p
    exact ⟨Int.le_refl 0, (by decide : (0 : Int) ≤ 32), fun _ _ => rfl, fun _ => rfl⟩

/-- Process 0 has file 1 open under descriptor 0. -/
def oneOpen : Files :=
  { noFiles with ref := Function.update noFiles.ref 1 1 }.setTask 0
    ⟨true, Function.update (fun _ => 0) 0 1, Table.freshTable⟩

theorem oneOpen_inv : oneOpen.Inv := by
  refine noFiles_inv.setTask _ ?_ ?_
  · exact ⟨Int.le_refl 0, (by decide : (0 : Int) ≤ 32), fun h => absurd h Bool.noConfusion,
      fun h => absurd h Bool.noConfusion⟩
  · intro f hf
    simp only [Task.held, List.count_append, Nat.cast_add, count_ofFn_update, noFiles,
      if_neg hf.symm]
    by_cases hone : f = 1
    · rw [hone, Function.update_self, if_pos rfl]
      omega
    · rw [Function.update_of_ne hone, if_neg fun h => hone h.symm]
      omega

instance (k : Files) : (c : Syscall) → Decidable (k.Careful c)
  | .mmap .. => inferInstanceAs (Decidable ((_ → _ ∧ _) ∧ (_ → _ → _)))
  | .munmap p addr length filewrite =>
    inferInstanceAs (Decidable (∀ i ∈ (k.procs p).maps.findVma (u32 (pgroundup (i32 addr))),
      (k.procs p).maps.Removes (i32 addr) (i32 length) filewrite i → _ ∧ _ ∧
        ∀ j, i + 1 ≤ j → j < _ → _))
  | .fork .. => inferInstanceAs (Decidable (∀ v ∈ entries _ _, _))
  | .exit .. => inferInstanceAs (Decidable (∀ f ∈ Table.liveFiles _, _))
  | .close .. | .forkFails .. | .pgft .. | .ofile .. | .neighbour .. => isTrue trivial

/-- Process 0 maps and unmaps an anonymous page, maps a page of its file, and closes the file. -/
def mapAndClose : List Syscall :=
  [.mmap 0 0 4096 0 (mapPrivate ||| mapAnonymous) (-1) 0, .munmap 0 mmapBase 4096 0,
    .mmap 0 0 4096 0 mapPrivate 0 0, .close 0 0]

/-- The theorem at that run, which leaves one reference. -/
theorem refs_balanced_mapAndClose :
    ∃ k', Run (guarded Careful (stepOf step)) oneOpen mapAndClose k' ∧ k'.ref 1 = 1 ∧
      k'.Balanced := by
  have hobs : (runOf (fun k c => if k.Careful c then k.step c else none) oneOpen
      mapAndClose).map (fun k => k.ref 1) = some 1 := by
    decide +kernel
  obtain ⟨k', hrun, href⟩ := Option.map_eq_some_iff.mp hobs
  exact ⟨k', run_guarded_of_runOf hrun, href, refs_balanced oneOpen_inv (run_guarded_of_runOf hrun)⟩

/-- `mmap` with neither `MAP_PRIVATE` nor `MAP_SHARED` fails, but the file has two references, one
descriptor and no mapping. -/
theorem failed_mmap_leaks :
    oneOpen.Inv ∧ ∃ r, oneOpen.sysMmap 0 0 4096 0 0 0 0 = .ok r ∧ r.1 = -1 ∧
      Run (stepOf step) oneOpen [.mmap 0 0 4096 0 0 0 0] r.2 ∧ oneOpen.ref 1 = 1 ∧
      r.2.ref 1 = 2 ∧ ∑ p, ((r.2.procs p).held.count 1 : Int) = 1 ∧ ¬ r.2.Balanced := by
  refine ⟨oneOpen_inv, _, rfl, by decide +kernel, Run.snoc Run.nil rfl, by decide +kernel,
    by decide +kernel, by decide +kernel, ?_⟩
  intro hbalanced
  have := hbalanced 1 (by decide)
  revert this
  decide +kernel

end Files

end Cs537.P5
