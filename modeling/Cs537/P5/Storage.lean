import Cs537.P5.Capacity
import Cs537.P5.Faults
import Cs537.P5.Flushing
import Cs537.P5.Freeing

/-!
# What stands behind the files of a process

`Machine` takes every open file for a regular file that can grow. `fileread` and `filewrite` of a
pipe or a device do something else, a file that was closed makes them panic, and so does a disk
without free blocks. In the write-back of a mapping of a regular file only the fault on its first
byte can read another file: the first search of `pgft_handler` takes it for the byte behind the
mapping below. So a write-back is the one of `Machine`, once that byte has been read, if the disk
has the blocks that the file needs more.
-/

namespace Cs537.P5

open Cs537.Lib

/-- What the memory of a process does not show of its files: which of them are regular files, which
bytes reading another one brings, if any, what comes of writing to another one, and how many blocks
of the disk are free. -/
structure Storage where
  regular : UInt32 → Bool
  arrives : Machine → UInt32 → Int → Except Halt (Option (List UInt8))
  other : Machine → UInt32 → Int → Int → Except Halt (Int × Machine)
  free : Nat

namespace Storage

/-! ## Reading -/

/-- `fileread` (`file.c:95-113`). -/
def fileread (s : Storage) (m : Machine) (locked : Option Nat) (f : UInt32) (addr n : Int) :
    Except Halt (Int × Machine) :=
  if ¬ (m.file f).readable then .ok (-1, m)
  else if s.regular f then m.fileread locked f addr n
  else
    match s.arrives m f n with
    | .error e => .error e
    | .ok none => .ok (-1, m)
    | .ok (some bs) =>
      match m.store addr bs with
      | .error e => .error e
      | .ok m => .ok (bs.length, m)

/-- `do_map` (`trap.c:64-100`) of a file that is not a regular one: the page is mapped as for an
anonymous mapping, and then filled. -/
def doMap (s : Storage) (m : Machine) (locked : Option Nat) (faultAddr : Int) (vma : Vma) :
    Except Halt Machine :=
  match m.doMap locked faultAddr { vma with flags := mapAnonymous } with
  | .error e => .error e
  | .ok m =>
    if m.dir.pte (pageOf faultAddr) = none then .ok m
    else
      match s.fileread m locked vma.file (pageOf faultAddr * pgsize) (Machine.readSize vma) with
      | .error e => .error e
      | .ok (_, m) => .ok m

/-- `pgft_handler` (`trap.c:102-147`). -/
def pgftHandler (s : Storage) (m : Machine) (locked : Option Nat) (faultAddr : Int) :
    Except Halt Machine :=
  match m.maps.pgftHandler faultAddr (m.dir.table (pdx faultAddr)).isSome with
  | (.killed, maps) => .ok { m with maps := maps, killed := true }
  | (.doMap vma, maps) =>
    if has vma.flags mapAnonymous ∨ s.regular vma.file then
      { m with maps := maps }.doMap locked faultAddr vma
    else s.doMap { m with maps := maps } locked faultAddr vma

/-- Reading a byte of user memory in the kernel, as `Machine.load`. -/
def load (s : Storage) (m : Machine) (locked : Option Nat) (va : Int) :
    Except Halt (UInt8 × Machine) :=
  match m.dir.pte (pageOf va) with
  | some e => .ok (m.bytes e.frame (Machine.pageOffset va), m)
  | none =>
    match s.pgftHandler m locked va with
    | .error e => .error e
    | .ok m =>
      match m.dir.pte (pageOf va) with
      | some e => .ok (m.bytes e.frame (Machine.pageOffset va), m)
      | none => .error .fault

/-- Reading `n` bytes. -/
def loads (s : Storage) (m : Machine) (locked : Option Nat) :
    Int → Nat → Except Halt (List UInt8 × Machine)
  | _, 0 => .ok ([], m)
  | va, n + 1 =>
    match s.load m locked (u32 va) with
    | .error e => .error e
    | .ok (c, m) =>
      match s.loads m locked (va + 1) n with
      | .error e => .error e
      | .ok (cs, m) => .ok (c :: cs, m)

/-! ## Writing -/

/-- `writei` of a file (`fs.c:481-511`), as `Machine.writei`. -/
def writei (s : Storage) (m : Machine) (ip : Nat) (src off : Int) (n : Nat) :
    Except Halt (Bool × Machine) :=
  if ((m.data ip).length : Int) < off ∨ u32 (off + n) < off then .ok (false, m)
  else if maxFileSize < u32 (off + n) then .ok (false, m)
  else
    match s.loads m (some ip) src n with
    | .error e => .error e
    | .ok (bs, m) =>
      .ok (true, { m with data := Function.update m.data ip (splice (m.data ip) off.toNat bs) })

/-- The blocks that a file of so many bytes has, with the one for their addresses. -/
def blocks (size : Nat) : Nat := Fs.total (Volume.blocksOf size)

theorem blocks_mono {n k : Nat} (h : n ≤ k) : blocks n ≤ blocks k := by
  apply Fs.total_mono
  unfold Volume.blocksOf
  exact Nat.div_le_div_right (Nat.add_le_add_right h _)

/-- The blocks of the file behind `f`. -/
def held (m : Machine) (f : UInt32) : Nat := blocks (m.data (m.file f).ip).length

/-- The loop of `filewrite` (`file.c:135-152`), as `Machine.writeLoop`, with `free` free blocks.
`writei` takes new ones from `balloc`, which panics when there are none (`fs.c:56-78`). -/
def writeLoop (s : Storage) (f : UInt32) :
    Nat → Nat → Machine → Int → Nat → Except Halt (Bool × Machine × Nat)
  | 0, free, m, _, n => .ok (n = 0, m, free)
  | fuel + 1, free, m, addr, n =>
    if n = 0 then .ok (true, m, free)
    else
      let n1 := min n Machine.maxChunk
      match s.writei m (m.file f).ip addr (m.file f).off n1 with
      | .error e => .error e
      | .ok (false, m) => .ok (false, m, free)
      | .ok (true, m') =>
        if held m' f - held m f ≤ free then
          writeLoop s f fuel (free - (held m' f - held m f)) (m'.seek f ((m'.file f).off + n1))
            (addr + n1) (n - n1)
        else .error .panic

/-- `filewrite` (`file.c:117-156`). -/
def filewrite (s : Storage) (m : Machine) (f : UInt32) (addr n : Int) :
    Except Halt (Int × Machine × Storage) :=
  if ¬ (m.file f).writable then .ok (-1, m, s)
  else if ¬ s.regular f then (s.other m f addr n).map fun r => (r.1, r.2, s)
  else if n < 0 then .ok (-1, m, s)
  else
    match writeLoop s f n.toNat s.free m addr n.toNat with
    | .error e => .error e
    | .ok (done, m, free) => .ok (if done then n else -1, m, { s with free := free })

/-- The write-back of `umunmap` (`sys_mmap.c:298-303`). -/
def writeBack (s : Storage) (m : Machine) (addr : Int) : Except Halt (Int × Machine × Storage) :=
  match Machine.dirtyEntry m.maps addr with
  | none => .ok (0, m, s)
  | some v => s.filewrite (m.seek v.file v.offset) v.file v.addr v.len

/-- `umunmap` (`sys_mmap.c:273-332`). -/
def umunmap (s : Storage) (m : Machine) (addr length : Int) :
    Except Halt (Int × Machine × Storage) :=
  match s.writeBack m addr with
  | .error e => .error e
  | .ok (written, m, s) =>
    let r := m.maps.umunmap addr length written
    .ok (r.1, r.2.2.foldl Machine.freePage { m with maps := r.2.1 }, s)

variable {s s' : Storage} {m m' m₁ : Machine} {f : UInt32} {addr length : Int}

/-! ## Reading what is mapped from regular files -/

/-- A page fault at `va` is for a page that is anonymous or of a regular file. -/
def Serves (s : Storage) (m : Machine) (va : Int) : Prop :=
  ∃ i, m.maps.covering va = some i ∧
    (has (m.maps.vmas i).flags mapAnonymous = true ∨ s.regular (m.maps.vmas i).file = true)

theorem Serves.pgftHandler_eq {va : Int} (h : s.Serves m va) (locked : Option Nat) :
    s.pgftHandler m locked va = m.pgftHandler locked va := by
  obtain ⟨i, hcover, hserved⟩ := h
  unfold pgftHandler Machine.pgftHandler Table.pgftHandler
  by_cases hout : kernBase ≤ va ∨ va < mmapBase
  · rw [if_pos hout]
  · rw [if_neg hout, hcover]
    simp only
    by_cases hkilled : (m.dir.table (pdx va)).isSome = true ∧
        ¬ has (m.maps.vmas i).flags mapGrowsup = true ∧ ¬ has (m.maps.vmas i).flags mapShared = true
    · rw [if_pos hkilled]
    · rw [if_neg hkilled]
      exact if_pos hserved

theorem load_congr {locked : Option Nat} {va : Int}
    (h : s.pgftHandler m locked va = m.pgftHandler locked va) :
    s.load m locked va = m.load locked va := by
  unfold load Machine.load
  generalize s.pgftHandler m locked va = r at h ⊢
  subst h
  rfl

theorem load_eq {va : Int} (h : m.dir.pte (pageOf va) = none → s.Serves m va)
    (locked : Option Nat) : s.load m locked va = m.load locked va := by
  cases habsent : m.dir.pte (pageOf va) with
  | some e =>
    unfold load Machine.load
    simp only [habsent]
  | none => exact load_congr ((h habsent).pgftHandler_eq locked)

/-- Bytes of mapping `i` whose pages are present, or come in without another kind of file. -/
structure Own (s : Storage) (m : Machine) (i va : Int) (n : Nat) : Prop where
  live : m.maps.Live i
  user : Machine.UserEntry m.maps i
  inside : ∀ k < n, Machine.InEntry (m.maps.vmas i) (u32 (va + k))
  serves : ∀ k < n, m.dir.pte (pageOf (u32 (va + k))) = none → s.Serves m (u32 (va + k))

/-- Some bytes in the middle, when pages of the mapping have come in. -/
theorem Own.part {i va : Int} {n k l : Nat} (h : s.Own m i va n)
    (hpaged : Machine.Paged m m' i) (hle : k + l ≤ n) : s.Own m' i (va + k) l := by
  have hmaps := hpaged.maps h.live
  have hplace (j : Nat) : va + (k : Int) + (j : Int) = va + ((k + j : Nat) : Int) := by omega
  refine ⟨?_, hpaged.user h.user, ?_, ?_⟩
  · rw [hmaps]
    exact h.live
  · intro j hj
    rw [hmaps, hplace]
    exact h.inside (k + j) (by omega)
  · intro j hj habsent
    rw [hplace] at habsent ⊢
    have habsent' : m.dir.pte (pageOf (u32 (va + ((k + j : Nat) : Int)))) = none := by
      cases hbefore : m.dir.pte (pageOf (u32 (va + ((k + j : Nat) : Int)))) with
      | none => rfl
      | some e =>
        rw [hpaged.kept _ e hbefore] at habsent
        cases habsent
    unfold Serves
    rw [hmaps]
    exact h.serves (k + j) (by omega) habsent'

theorem Own.first {i va : Int} {n k : Nat} (h : s.Own m i va n) (hle : k ≤ n) : s.Own m i va k :=
  ⟨h.live, h.user, fun j hj => h.inside j (by omega), fun j hj => h.serves j (by omega)⟩

theorem Own.congr {i va : Int} {n : Nat} (h : s.Own m i va n) (hmaps : m'.maps = m.maps)
    (hdir : m'.dir = m.dir) : s.Own m' i va n := by
  obtain ⟨hlive, huser, hinside, hserves⟩ := h
  unfold Serves at hserves
  rw [← hmaps] at hlive huser hinside hserves
  rw [← hdir] at hserves
  exact ⟨hlive, huser, hinside, hserves⟩

theorem Own.loads_eq {i va : Int} {n : Nat} (h : s.Own m i va n) (locked : Option Nat) :
    s.loads m locked va n = m.loads locked va n := by
  induction n generalizing m va with
  | zero => rfl
  | succ n ih =>
    have hzero : va + ((0 : Nat) : Int) = va := by omega
    have hinside := h.inside 0 (Nat.succ_pos n)
    have hserves := h.serves 0 (Nat.succ_pos n)
    rw [hzero] at hinside hserves
    rw [loads, Machine.loads, load_eq hserves locked]
    cases hload : m.load locked (u32 va) with
    | error e => rfl
    | ok r =>
      obtain ⟨c, m₁⟩ := r
      have hpaged := ((Machine.load_cases hload).paged h.user hinside).1
      have hrest := ih (h.part (k := 1) (l := n) hpaged (by omega))
      rw [show va + ((1 : Nat) : Int) = va + 1 by omega] at hrest
      simp only
      generalize s.loads m₁ locked (va + 1) n = r at hrest ⊢
      subst hrest
      rfl

theorem Own.writei_eq {i va : Int} {n : Nat} (h : s.Own m i va n) (ip : Nat) (off : Int) :
    s.writei m ip va off n = m.writei ip va off n := by
  have hloads := h.loads_eq (some ip)
  unfold writei Machine.writei
  generalize s.loads m (some ip) va n = r at hloads ⊢
  subst hloads
  rfl

/-! ## The first byte -/

/-- Reading a byte of a page that is present. -/
theorem load_again {locked : Option Nat} {va : Int} {c : UInt8}
    (h : s.load m locked va = .ok (c, m')) :
    m'.dir.pte (pageOf va) ≠ none ∧ s.load m' locked va = .ok (c, m') := by
  have hthere {m : Machine} {e : Pte} (hpte : m.dir.pte (pageOf va) = some e) :
      s.load m locked va = .ok (m.bytes e.frame (Machine.pageOffset va), m) := by
    unfold load
    rw [hpte]
  cases hpte : m.dir.pte (pageOf va) with
  | some e =>
    cases (hthere hpte).symm.trans h
    exact ⟨by rw [hpte]; exact Option.some_ne_none e, h⟩
  | none =>
    unfold load at h
    rw [hpte] at h
    simp only at h
    cases hfault : s.pgftHandler m locked va with
    | error e =>
      rw [hfault] at h
      cases h
    | ok m₁ =>
      rw [hfault] at h
      simp only at h
      cases hpte' : m₁.dir.pte (pageOf va) with
      | none =>
        rw [hpte'] at h
        cases h
      | some e =>
        rw [hpte'] at h
        cases h
        exact ⟨by rw [hpte']; exact Option.some_ne_none e, hthere hpte'⟩

/-- The first byte is read, and then all of them. -/
theorem loads_again (s : Storage) (m : Machine) (locked : Option Nat) (va : Int) (n : Nat) :
    s.loads m locked va (n + 1) =
      match s.load m locked (u32 va) with
      | .error e => .error e
      | .ok (_, m) => s.loads m locked va (n + 1) := by
  rw [loads]
  cases hload : s.load m locked (u32 va) with
  | error e => rfl
  | ok r =>
    obtain ⟨c, m₀⟩ := r
    simp only
    rw [loads, (load_again hload).2]

/-- Reading a file of another kind changes the page it is read into. -/
theorem fileread_other {locked : Option Nat} {n r : Int} (hother : s.regular f = false)
    (h : s.fileread m locked f addr n = .ok (r, m')) : ∃ bytes, m' = { m with bytes := bytes } := by
  unfold fileread at h
  by_cases hreadable : ¬ (m.file f).readable = true
  · rw [if_pos hreadable] at h
    cases h
    exact ⟨_, rfl⟩
  · rw [if_neg hreadable, hother] at h
    simp only [Bool.false_eq_true, if_false] at h
    cases harrives : s.arrives m f n with
    | error e =>
      rw [harrives] at h
      cases h
    | ok bs =>
      rw [harrives] at h
      cases bs with
      | none =>
        cases h
        exact ⟨_, rfl⟩
      | some bs =>
        simp only at h
        rcases m.store_cases addr bs with ⟨-, bytes, hstore⟩ | ⟨-, herror⟩
        · rw [hstore] at h
          cases h
          exact ⟨bytes, rfl⟩
        · rw [herror] at h
          cases h

/-- A page that another kind of file is read into comes in, and nothing else changes. -/
theorem doMap_other {locked : Option Nat} {va : Int} {vma : Vma} {e : Pte}
    (hother : s.regular vma.file = false) (h0 : 0 ≤ va) (hhi : va < 2 ^ 32)
    (habsent : m.dir.pte (pageOf va) = none) (h : s.doMap m locked va vma = .ok m')
    (hpte : m'.dir.pte (pageOf va) = some e) :
    e.frame ∈ m.free ∧ m'.free ⊆ m.free ∧
      m'.dir.pte = Function.update m.dir.pte (pageOf va) (some e) ∧
      m'.maps = m.maps ∧ m'.file = m.file ∧ m'.data = m.data := by
  unfold doMap at h
  cases Machine.doMap_cases locked { vma with flags := mapAnonymous } h0 hhi habsent with
  | killed free bytes few suffix same eq =>
    simp only [eq, if_pos habsent] at h
    cases h
    cases habsent.symm.trans hpte
  | mapped mem rest free dir enough taken suffix pte eq =>
    have hanon : has mapAnonymous mapAnonymous = true := by decide
    have hthere : dir.pte (pageOf va) = some ⟨mem, Machine.mapPerm vma⟩ := by
      rw [pte, Function.update_self]
      rfl
    rw [Machine.fillPage, if_pos hanon] at eq
    simp only [eq, hthere, reduceCtorEq, if_false] at h
    cases hread : s.fileread { m with free := free, bytes := m.bytes.fill mem 0, dir := dir } locked
        vma.file (pageOf va * pgsize) (Machine.readSize vma) with
    | error e =>
      rw [hread] at h
      cases h
    | ok r =>
      obtain ⟨r, m₂⟩ := r
      rw [hread] at h
      cases h
      obtain ⟨bytes, rfl⟩ := fileread_other hother hread
      cases hthere.symm.trans hpte
      rw [taken]
      refine ⟨List.mem_cons_self, ?_, pte, rfl, rfl, rfl⟩
      exact fun g hg => List.mem_cons_of_mem mem (suffix.subset hg)

/-- Reading a byte of a mapping under the lock of a file brings at most its page in. -/
theorem load_ok {va i : Int} {c : UInt8} (huser : Machine.UserEntry m.maps i)
    (hin : Machine.InEntry (m.maps.vmas i) va)
    (h : s.load m (some (m.file f).ip) va = .ok (c, m')) :
    Machine.Paged m m' i ∧ Machine.Kept f m m' := by
  have hm : mmapBase = 0x60000000 := rfl
  have hk : kernBase = 0x80000000 := rfl
  have hsame (heq : s.load m (some (m.file f).ip) va = m.load (some (m.file f).ip) va) :
      Machine.Paged m m' i ∧ Machine.Kept f m m' := by
    rw [heq] at h
    exact ⟨((Machine.load_cases h).paged huser hin).1, (Machine.load_locked rfl va).2 _ h⟩
  cases habsent : m.dir.pte (pageOf va) with
  | some e => exact hsame (load_eq (fun hnone => by rw [habsent] at hnone; cases hnone) _)
  | none =>
    rcases hhandler : m.maps.pgftHandler va (m.dir.table (pdx va)).isSome with ⟨fault, t⟩
    cases fault with
    | killed =>
      refine hsame (load_congr ?_)
      unfold pgftHandler Machine.pgftHandler
      simp only [hhandler]
    | doMap vma =>
      by_cases hserved : has vma.flags mapAnonymous = true ∨ s.regular vma.file = true
      · refine hsame (load_congr ?_)
        unfold pgftHandler Machine.pgftHandler
        simp only [hhandler, if_pos hserved]
      · rw [not_or] at hserved
        unfold load pgftHandler at h
        simp only [habsent, hhandler, if_neg (not_or.mpr hserved)] at h
        cases hfault : s.doMap { m with maps := t } (some (m.file f).ip) va vma with
        | error e =>
          rw [hfault] at h
          cases h
        | ok m₁ =>
          rw [hfault] at h
          simp only at h
          cases hpte : m₁.dir.pte (pageOf va) with
          | none =>
            rw [hpte] at h
            cases h
          | some e =>
            rw [hpte] at h
            cases h
            have hmem := Machine.doMap_mem hhandler
            obtain ⟨htaken, hfree, hdir, hmaps, hfile, hdata⟩ := doMap_other
              (m := { m with maps := t }) (Bool.not_eq_true _ ▸ hserved.2) (by omega) (by omega)
              habsent hfault hpte
            have hloaded : Machine.Loaded m m' va :=
              .mapped vma t e habsent hhandler htaken hfree hdir hmaps
            exact ⟨(hloaded.paged huser hin).1, by rw [hfile], hdata⟩

/-! ## Blocks -/

/-- `writei` that refuses changes nothing. -/
theorem writei_false {ip n : Nat} {off : Int} (h : m.writei ip addr off n = .ok (false, m')) :
    m' = m := by
  unfold Machine.writei at h
  split at h
  · cases h
    rfl
  · split at h
    · cases h
      rfl
    · split at h
      · cases h
      · cases h

/-- A part that is written leaves the file where it is and does not make it shorter. -/
theorem held_writei {n : Nat} {off : Int}
    (h : m.writei (m.file f).ip addr off n = .ok (true, m')) :
    m'.file f = m.file f ∧ held m f ≤ held m' f := by
  unfold Machine.writei at h
  split at h
  · cases h
  · rename_i hstart
    rw [not_or] at hstart
    split at h
    · cases h
    · cases hloads : m.loads (some (m.file f).ip) addr n with
      | error e =>
        rw [hloads] at h
        cases h
      | ok r =>
        obtain ⟨bs, m₁⟩ := r
        obtain ⟨hfile, hdata⟩ := (Machine.loads_locked rfl addr n).2 _ hloads
        rw [hloads] at h
        cases h
        simp only at hfile hdata
        refine ⟨hfile, blocks_mono ?_⟩
        simp only [hfile, hdata, Function.update_self]
        rw [length_splice bs (by omega)]
        omega

theorem held_seek (m : Machine) (f : UInt32) (off : Int) : held (m.seek f off) f = held m f := by
  unfold held
  rw [Machine.seek_off]
  rfl

/-- The loop of `filewrite` does not make a file shorter. -/
theorem held_writeLoop {fuel n : Nat} {done : Bool}
    (h : Machine.writeLoop f fuel m addr n = .ok (done, m')) : held m f ≤ held m' f := by
  induction fuel generalizing m addr n with
  | zero =>
    cases h
    exact Nat.le_refl _
  | succ fuel ih =>
    rw [Machine.writeLoop] at h
    by_cases hn : n = 0
    · rw [if_pos hn] at h
      cases h
      exact Nat.le_refl _
    · rw [if_neg hn] at h
      cases hwrite : m.writei (m.file f).ip addr (m.file f).off (min n Machine.maxChunk) with
      | error e =>
        simp only [hwrite] at h
        cases h
      | ok r =>
        obtain ⟨_ | _, m₁⟩ := r
        · simp only [hwrite] at h
          cases h
          rw [writei_false hwrite]
        · simp only [hwrite] at h
          have hfirst := (held_writei hwrite).2
          have hrest := ih h
          rw [held_seek] at hrest
          exact hfirst.trans hrest

/-- The blocks that are left when the file behind `f` has grown. -/
def left (free : Nat) (m m' : Machine) (f : UInt32) : Nat := free - (held m' f - held m f)

/-- The loop returns if and only if the disk has the blocks that the file takes. -/
theorem writeLoop_iff {fuel n free free' : Nat} {done : Bool} {i : Int}
    (hown : s.Own m i addr n) :
    writeLoop s f fuel free m addr n = .ok (done, m', free') ↔
      Machine.writeLoop f fuel m addr n = .ok (done, m') ∧ held m' f ≤ free + held m f ∧
        free' = left free m m' f := by
  have hsame {m : Machine} {free : Nat} {done' : Bool} :
      (Except.ok (done', m, free) : Except Halt (Bool × Machine × Nat)) = .ok (done, m', free') ↔
        (Except.ok (done', m) : Except Halt (Bool × Machine)) = .ok (done, m') ∧
          held m' f ≤ free + held m f ∧ free' = left free m m' f := by
    simp only [Except.ok.injEq, Prod.mk.injEq]
    unfold left
    constructor
    · rintro ⟨hdone, rfl, rfl⟩
      exact ⟨⟨hdone, rfl⟩, by omega, by omega⟩
    · rintro ⟨⟨hdone, rfl⟩, -, hfree⟩
      exact ⟨hdone, rfl, by omega⟩
  induction fuel generalizing m addr n free with
  | zero =>
    rw [writeLoop, Machine.writeLoop]
    exact hsame
  | succ fuel ih =>
    rw [writeLoop, Machine.writeLoop]
    by_cases hn : n = 0
    · rw [if_pos hn, if_pos hn]
      exact hsame
    · rw [if_neg hn, if_neg hn]
      have hle : min n Machine.maxChunk ≤ n := Nat.min_le_left _ _
      simp only
      generalize min n Machine.maxChunk = n₁ at hle
      rw [(hown.first hle).writei_eq]
      cases hwrite : m.writei (m.file f).ip addr (m.file f).off n₁ with
      | error e => simp only [reduceCtorEq, false_and]
      | ok r =>
        obtain ⟨_ | _, m₁⟩ := r
        · obtain rfl := writei_false hwrite
          exact hsame
        · have hfirst := (held_writei hwrite).2
          have hpaged := (Machine.writei_paged hown.user (hown.first hle).inside hwrite).1
          have hpart := hown.part (k := n₁) (l := n - n₁) hpaged (by omega)
          have hrest : s.Own (m₁.seek f ((m₁.file f).off + n₁)) i (addr + n₁) (n - n₁) :=
            hpart.congr rfl rfl
          simp only
          by_cases hroom : held m₁ f - held m f ≤ free
          · rw [if_pos hroom]
            refine (ih hrest).trans ?_
            unfold left
            rw [held_seek]
            apply and_congr_right
            intro hloop
            have hgrown := held_writeLoop hloop
            rw [held_seek] at hgrown
            constructor
            · rintro ⟨hle, rfl⟩
              exact ⟨by omega, by omega⟩
            · rintro ⟨hle, rfl⟩
              exact ⟨by omega, by omega⟩
          · rw [if_neg hroom]
            simp only [reduceCtorEq, false_iff]
            rintro ⟨hloop, hle, -⟩
            have hgrown := held_writeLoop hloop
            rw [held_seek] at hgrown
            omega

/-! ## Writing back -/

/-- The storage when the file behind `f` has grown. -/
def spend (s : Storage) (m m' : Machine) (f : UInt32) : Storage :=
  { s with free := left s.free m m' f }

/-- Writing to a regular file. -/
theorem filewrite_iff {n w i : Int} (hregular : s.regular f = true)
    (hown : s.Own m i addr n.toNat) :
    s.filewrite m f addr n = .ok (w, m', s') ↔
      m.filewrite f addr n = .ok (w, m') ∧ held m' f ≤ s.free + held m f ∧
        s' = s.spend m m' f := by
  have hsame : s.spend m m f = s := by
    unfold spend left
    rw [Nat.sub_self, Nat.sub_zero]
  have hrefused : (Except.ok (-1, m, s) : Except Halt (Int × Machine × Storage)) = .ok (w, m', s') ↔
      (Except.ok (-1, m) : Except Halt (Int × Machine)) = .ok (w, m') ∧
        held m' f ≤ s.free + held m f ∧ s' = s.spend m m' f := by
    simp only [Except.ok.injEq, Prod.mk.injEq]
    constructor
    · rintro ⟨hw, rfl, rfl⟩
      exact ⟨⟨hw, rfl⟩, Nat.le_add_left _ _, hsame.symm⟩
    · rintro ⟨⟨hw, rfl⟩, -, rfl⟩
      exact ⟨hw, rfl, hsame.symm⟩
  unfold filewrite Machine.filewrite
  by_cases hopen : ¬ (m.file f).writable = true
  · rw [if_pos hopen, if_pos hopen]
    exact hrefused
  · rw [if_neg hopen, if_neg hopen, if_neg (not_not.mpr hregular)]
    by_cases hn : n < 0
    · rw [if_pos hn, if_pos hn]
      exact hrefused
    · rw [if_neg hn, if_neg hn]
      constructor
      · intro h
        cases hloop : writeLoop s f n.toNat s.free m addr n.toNat with
        | error e =>
          rw [hloop] at h
          cases h
        | ok r =>
          obtain ⟨done, m₁, free⟩ := r
          rw [hloop] at h
          cases h
          obtain ⟨hmachine, hroom, rfl⟩ := (writeLoop_iff hown).mp hloop
          rw [hmachine]
          exact ⟨rfl, hroom, rfl⟩
      · rintro ⟨h, hroom, rfl⟩
        cases hloop : Machine.writeLoop f n.toNat m addr n.toNat with
        | error e =>
          rw [hloop] at h
          cases h
        | ok r =>
          obtain ⟨done, m₁⟩ := r
          rw [hloop] at h
          cases h
          rw [(writeLoop_iff hown).mpr ⟨hloop, hroom, rfl⟩]
          rfl

/-! ## Writing back a mapping -/

/-- The disk has the blocks that the write-back of a mapping takes. -/
def Room (s : Storage) (m : Machine) (v : Vma) : Prop :=
  blocks (max (m.fileData v).length ((u32 v.offset).toNat + v.len.toNat)) ≤
    s.free + blocks (m.fileData v).length

/-- The write-back of a mapping succeeds but for the blocks of the disk: its file takes it, and its
memory can be read while the inode is locked, as the bytes `bs`. -/
structure Flushes (s : Storage) (m : Machine) (v : Vma) (bs : List UInt8) (m₁ : Machine) :
    Prop where
  takes : m.Takes v
  reads : s.loads (m.seek v.file v.offset) (some (m.file v.file).ip) v.addr v.len.toNat =
    .ok (bs, m₁)

/-- `umunmap` at `addr` finds mapping `i`, of a regular file, to write back. Only for its first byte
may the handler find another one. -/
structure Dirty (s : Storage) (m : Machine) (addr i : Int) : Prop where
  live : m.maps.Live i
  user : Machine.UserEntry m.maps i
  found : Machine.dirtyEntry m.maps addr = some (m.maps.vmas i)
  regular : s.regular (m.maps.vmas i).file = true
  len_pos : 0 < (m.maps.vmas i).len
  len_lt : (m.maps.vmas i).len < 2 ^ 31
  serves : ∀ k < (m.maps.vmas i).len.toNat, 0 < k →
    s.Serves m (u32 ((m.maps.vmas i).addr + k))

section Flushing

variable {i : Int} {v : Vma}

/-- The machine when the first byte of a mapping has been read. -/
structure Touched (s : Storage) (m : Machine) (i : Int) (m₀ : Machine) : Prop where
  paged : Machine.Paged m m₀ i
  file : m₀.file (m.maps.vmas i).file =
    (m.seek (m.maps.vmas i).file (m.maps.vmas i).offset).file (m.maps.vmas i).file
  data : m₀.data = m.data
  own : s.Own m₀ i (m.maps.vmas i).addr (m.maps.vmas i).len.toNat

/-- `f->off = vma->offset`, with which the write-back of mapping `i` begins. -/
abbrev rewound (m : Machine) (i : Int) : Machine :=
  m.seek (m.maps.vmas i).file (m.maps.vmas i).offset

/-- Then the first byte of the mapping is read, with the inode of its file locked. -/
abbrev firstByte (s : Storage) (m : Machine) (i : Int) : Except Halt (UInt8 × Machine) :=
  s.load (rewound m i) (some (m.file (m.maps.vmas i).file).ip) (u32 (m.maps.vmas i).addr)

theorem Dirty.touched {m₀ : Machine} {c : UInt8} (h : s.Dirty m addr i)
    (hload : s.firstByte m i = .ok (c, m₀)) :
    s.Touched m i m₀ := by
  have hzero : (m.maps.vmas i).addr + ((0 : Nat) : Int) = (m.maps.vmas i).addr := by omega
  have hpos := h.len_pos
  have hin (k : Nat) (hk : k < (m.maps.vmas i).len.toNat) :
      Machine.InEntry (m.maps.vmas i) (u32 ((m.maps.vmas i).addr + k)) := ⟨k, by omega, rfl⟩
  have hfirst := hin 0 (by omega)
  rw [hzero] at hfirst
  have hip : (m.file (m.maps.vmas i).file).ip =
      ((rewound m i).file (m.maps.vmas i).file).ip := by
    rw [Machine.seek_off]
  have hthere := (load_again hload).1
  rw [firstByte, hip] at hload
  have huser : Machine.UserEntry (rewound m i).maps i := h.user
  obtain ⟨hpaged, hfile, hdata⟩ := load_ok huser hfirst hload
  have hseek : Machine.Paged m (rewound m i) i :=
    (Machine.Paged.refl m i).congr rfl rfl rfl
  have hpaged' := hseek.trans hpaged
  have hmaps := hpaged'.maps h.live
  refine ⟨hpaged', hfile, hdata, ?_⟩
  refine ⟨by rw [hmaps]; exact h.live, hpaged'.user h.user, ?_, ?_⟩
  · intro k hk
    rw [hmaps]
    exact hin k hk
  · intro k hk habsent
    unfold Serves
    rw [hmaps]
    by_cases hk0 : k = 0
    · rw [hk0, hzero] at habsent
      exact absurd habsent hthere
    · exact h.serves k hk (by omega)

/-- The mapping is found again when its first byte has been read. -/
theorem Touched.dirty {m₀ : Machine} (ht : s.Touched m i m₀) (h : s.Dirty m addr i) :
    Machine.dirtyEntry m₀.maps addr = some (m.maps.vmas i) ∧
      m₀.seek (m.maps.vmas i).file (m.maps.vmas i).offset = m₀ := by
  refine ⟨by rw [ht.paged.maps h.live]; exact h.found, ?_⟩
  have hfile := ht.file
  rw [Machine.seek_off] at hfile
  unfold Machine.seek
  rw [hfile]
  simp only
  rw [← hfile, Function.update_eq_self]

theorem seek_entry (m : Machine) (i : Int) :
    (rewound m i).file (m.maps.vmas i).file =
      { m.file (m.maps.vmas i).file with off := u32 (m.maps.vmas i).offset } :=
  Machine.seek_off m _ _

/-- The first part of what is written back goes to the file. -/
structure Starts (m : Machine) (v : Vma) : Prop where
  writable : (m.file v.file).writable = true
  fits : (m.seek v.file v.offset).Fits v.file (min v.len.toNat Machine.maxChunk)

theorem starts_of_takes (h : m.Takes v) : Starts m v := by
  obtain ⟨h0, hle, hend⟩ := h.fits
  exact ⟨h.writable, h0, hle, by omega⟩

/-- A loop that begins with a part the file takes begins with reading the first byte. -/
theorem writeLoop_touch {fuel free n : Nat} (hfits : m.Fits f (min n Machine.maxChunk))
    (hpos : 0 < n) (hkept : ∀ c m₀, s.load m (some (m.file f).ip) (u32 addr) = .ok (c, m₀) →
      Machine.Kept f m m₀) :
    s.writeLoop f (fuel + 1) free m addr n =
      match s.load m (some (m.file f).ip) (u32 addr) with
      | .error e => .error e
      | .ok (_, m₀) => s.writeLoop f (fuel + 1) free m₀ addr n := by
  have hwritei {m : Machine} (hfits : m.Fits f (min n Machine.maxChunk)) :
      s.writei m (m.file f).ip addr (m.file f).off (min n Machine.maxChunk) =
        match s.loads m (some (m.file f).ip) addr (min n Machine.maxChunk) with
        | .error e => .error e
        | .ok (bs, m₁) => .ok (true, { m₁ with
            data := Function.update m₁.data (m.file f).ip
              (splice (m₁.data (m.file f).ip) (m.file f).off.toNat bs) }) := by
    have hend := hfits.end_le
    have hle := hfits.off_le
    unfold writei
    rw [hfits.u32_end, if_neg (by omega), if_neg (by omega)]
  obtain ⟨k, hk⟩ : ∃ k, min n Machine.maxChunk = k + 1 := by
    refine ⟨min n Machine.maxChunk - 1, ?_⟩
    have : 0 < Machine.maxChunk := by decide
    omega
  rw [writeLoop, if_neg (by omega)]
  simp only
  rw [hwritei hfits, hk, loads_again]
  cases hload : s.load m (some (m.file f).ip) (u32 addr) with
  | error e => rfl
  | ok r =>
    obtain ⟨c, m₀⟩ := r
    obtain ⟨hfile, hdata⟩ := hkept c m₀ hload
    have hfits₀ : m₀.Fits f (min n Machine.maxChunk) := by
      obtain ⟨h1, h2, h3⟩ := hfits
      refine ⟨?_, ?_, ?_⟩
      · rw [hfile]
        exact h1
      · rw [hfile, hdata]
        exact h2
      · rw [hfile]
        exact h3
    have hheld : held m₀ f = held m f := by
      unfold held
      rw [hfile, hdata]
    simp only
    rw [writeLoop, if_neg (by omega)]
    simp only
    rw [hwritei hfits₀, hk, hheld, hfile]

/-- A write-back that begins goes on from where the first byte has been read. -/
theorem Dirty.writeBack_touch (h : s.Dirty m addr i) (hstarts : Starts m (m.maps.vmas i)) :
    s.writeBack m addr =
      match s.firstByte m i with
      | .error e => .error e
      | .ok (_, m₀) => s.writeBack m₀ addr := by
  have hfile := seek_entry m i
  have hip : ((rewound m i).file (m.maps.vmas i).file).ip =
      (m.file (m.maps.vmas i).file).ip := by rw [hfile]
  have hpos := h.len_pos
  obtain ⟨fuel, hfuel⟩ : ∃ fuel, (m.maps.vmas i).len.toNat = fuel + 1 :=
    ⟨(m.maps.vmas i).len.toNat - 1, by omega⟩
  have hfilewrite {m₁ : Machine} (hopen : (m₁.file (m.maps.vmas i).file).writable = true) :
      s.filewrite m₁ (m.maps.vmas i).file (m.maps.vmas i).addr (m.maps.vmas i).len =
        match s.writeLoop (m.maps.vmas i).file (fuel + 1) s.free m₁ (m.maps.vmas i).addr
          (m.maps.vmas i).len.toNat with
        | .error e => .error e
        | .ok (done, m₂, free) =>
          .ok (if done then (m.maps.vmas i).len else -1, m₂, { s with free := free }) := by
    unfold filewrite
    rw [if_neg (not_not.mpr hopen), if_neg (not_not.mpr h.regular), if_neg (by omega), hfuel]
  have hkept (c : UInt8) (m₀ : Machine) (hload : s.load
      (rewound m i) (some ((rewound m i).file (m.maps.vmas i).file).ip) (u32 (m.maps.vmas i).addr) =
          .ok (c, m₀)) :
      Machine.Kept (m.maps.vmas i).file (rewound m i) m₀ := by
    rw [hip] at hload
    exact ⟨(h.touched hload).file, (h.touched hload).data⟩
  have hwriteBack : s.writeBack m addr =
      s.filewrite (rewound m i) (m.maps.vmas i).file (m.maps.vmas i).addr
        (m.maps.vmas i).len := by
    unfold writeBack
    rw [h.found]
  rw [hwriteBack, hfilewrite (by rw [hfile]; exact hstarts.writable),
    writeLoop_touch hstarts.fits (by omega) hkept, hip, firstByte]
  cases hload : s.load (rewound m i) (some (m.file (m.maps.vmas i).file).ip)
      (u32 (m.maps.vmas i).addr) with
  | error e => rfl
  | ok r =>
    obtain ⟨c, m₀⟩ := r
    have ht := h.touched hload
    obtain ⟨hfound, hseek⟩ := ht.dirty h
    have hwriteBack₀ : s.writeBack m₀ addr =
        s.filewrite m₀ (m.maps.vmas i).file (m.maps.vmas i).addr (m.maps.vmas i).len := by
      unfold writeBack
      rw [hfound]
      simp only [hseek]
    simp only
    rw [hwriteBack₀, hfilewrite (by rw [ht.file, hfile]; exact hstarts.writable)]

theorem writei_refused {ip n : Nat} {off : Int} (h : m.writei ip addr off n = .ok (false, m')) :
    s.writei m ip addr off n = .ok (false, m') := by
  unfold Machine.writei at h
  unfold writei
  by_cases hbehind : ((m.data ip).length : Int) < off ∨ u32 (off + n) < off
  · rw [if_pos hbehind] at h ⊢
    exact h
  · rw [if_neg hbehind] at h ⊢
    by_cases hlarge : maxFileSize < u32 (off + n)
    · rw [if_pos hlarge] at h ⊢
      exact h
    · rw [if_neg hlarge] at h
      split at h <;> cases h

/-- A write-back that does not begin is refused, as in `Machine`. -/
theorem Dirty.writeBack_refused (h : s.Dirty m addr i) (hnot : ¬ Starts m (m.maps.vmas i)) :
    s.writeBack m addr = .ok (-1, m.seek (m.maps.vmas i).file (m.maps.vmas i).offset, s) ∧
      m.writeBack addr = .ok (-1, m.seek (m.maps.vmas i).file (m.maps.vmas i).offset) := by
  have hfile := seek_entry m i
  have hpos := h.len_pos
  unfold writeBack Machine.writeBack
  rw [h.found]
  simp only
  unfold filewrite Machine.filewrite
  by_cases hopen : (m.file (m.maps.vmas i).file).writable = true
  · have hfits : ¬ (rewound m i).Fits (m.maps.vmas i).file
        (min (m.maps.vmas i).len.toNat Machine.maxChunk) := fun hfits => hnot ⟨hopen, hfits⟩
    have hoff : 0 ≤ u32 (m.maps.vmas i).offset ∧ u32 (m.maps.vmas i).offset < 2 ^ 32 := by
      unfold u32
      omega
    have hlt := h.len_lt
    have hrefused := Machine.writei_refused (m.maps.vmas i).addr hfits (by rw [hfile]; exact hoff.1)
      (by rw [hfile]; exact hoff.2) (by omega)
    obtain ⟨fuel, hfuel⟩ : ∃ fuel, (m.maps.vmas i).len.toNat = fuel + 1 :=
      ⟨(m.maps.vmas i).len.toNat - 1, by omega⟩
    have hopen' : ((rewound m i).file (m.maps.vmas i).file).writable = true := by
      rw [hfile]
      exact hopen
    rw [if_neg (not_not.mpr hopen'), if_neg (not_not.mpr h.regular), if_neg (by omega),
      if_neg (not_not.mpr hopen'), if_neg (by omega), hfuel, writeLoop, Machine.writeLoop,
      if_neg (Nat.succ_ne_zero fuel), if_neg (Nat.succ_ne_zero fuel), ← hfuel]
    simp only [hrefused, writei_refused hrefused]
    exact ⟨rfl, rfl⟩
  · rw [hfile]
    exact ⟨if_pos hopen, if_pos hopen⟩

/-- From there on it is the write-back of `Machine`, if the disk has the blocks. -/
theorem Touched.writeBack_iff {m₀ : Machine} {w : Int} (ht : s.Touched m i m₀)
    (h : s.Dirty m addr i) :
    s.writeBack m₀ addr = .ok (w, m', s') ↔
      m₀.writeBack addr = .ok (w, m') ∧
        held m' (m.maps.vmas i).file ≤ s.free + held m₀ (m.maps.vmas i).file ∧
          s' = s.spend m₀ m' (m.maps.vmas i).file := by
  obtain ⟨hfound, hseek⟩ := ht.dirty h
  unfold writeBack Machine.writeBack
  rw [hfound]
  simp only [hseek]
  exact filewrite_iff h.regular ht.own

/-- The call goes on from the write-back as in `Machine`. -/
theorem umunmap_of_writeBack {m₀ : Machine} {w : Int} (hs : s.writeBack m addr = .ok (w, m₁, s'))
    (hm : m₀.writeBack addr = .ok (w, m₁)) (length : Int) :
    s.umunmap m addr length = (m₀.umunmap addr length).map fun r => (r.1, r.2, s') := by
  unfold umunmap Machine.umunmap
  rw [hs, hm]
  rfl

/-- A write-back that returns is one of `Machine`, from where the first byte has been read. -/
theorem Dirty.writeBack_ok {w : Int} (h : s.Dirty m addr i)
    (hok : s.writeBack m addr = .ok (w, m', s')) :
    ∃ m₀, m₀.writeBack addr = .ok (w, m') ∧
      (m₀ = m ∧ ¬ Starts m (m.maps.vmas i) ∨
        (∃ c, s.firstByte m i = .ok (c, m₀)) ∧
          held m' (m.maps.vmas i).file ≤ s.free + held m₀ (m.maps.vmas i).file) := by
  by_cases hstarts : Starts m (m.maps.vmas i)
  · rw [h.writeBack_touch hstarts] at hok
    cases hload : s.firstByte m i with
    | error e =>
      rw [hload] at hok
      cases hok
    | ok r =>
      obtain ⟨c, m₀⟩ := r
      rw [hload] at hok
      obtain ⟨hmachine, hroom, -⟩ := ((h.touched hload).writeBack_iff h).mp hok
      exact ⟨m₀, hmachine, .inr ⟨⟨c, rfl⟩, hroom⟩⟩
  · obtain ⟨hs, hm⟩ := h.writeBack_refused hstarts
    cases hs.symm.trans hok
    exact ⟨m, hm, .inl ⟨rfl, hstarts⟩⟩

/-- Reading the whole mapping, when its first byte has been read. -/
theorem Dirty.flushes_iff {m₀ : Machine} {c : UInt8} {bs : List UInt8} (h : s.Dirty m addr i)
    (hload : s.firstByte m i = .ok (c, m₀)) :
    s.Flushes m (m.maps.vmas i) bs m₁ ↔ m₀.Flushes (m.maps.vmas i) bs m₁ := by
  have ht := h.touched hload
  have hseek := (ht.dirty h).2
  have hfile := ht.file
  have hold := seek_entry m i
  have hip : (m₀.file (m.maps.vmas i).file).ip = (m.file (m.maps.vmas i).file).ip := by
    rw [hfile, hold]
  have hpos := h.len_pos
  obtain ⟨n, hn⟩ : ∃ n, (m.maps.vmas i).len.toNat = n + 1 :=
    ⟨(m.maps.vmas i).len.toNat - 1, by omega⟩
  have hreads : s.loads (rewound m i)
      (some (m.file (m.maps.vmas i).file).ip) (m.maps.vmas i).addr (m.maps.vmas i).len.toNat =
        m₀.loads (some (m₀.file (m.maps.vmas i).file).ip) (m.maps.vmas i).addr
          (m.maps.vmas i).len.toNat := by
    rw [firstByte] at hload
    rw [hip, ← ht.own.loads_eq, hn, loads_again, hload]
  have htakes : m.Takes (m.maps.vmas i) ↔ m₀.Takes (m.maps.vmas i) := by
    have hfits : (rewound m i).Fits (m.maps.vmas i).file
        (m.maps.vmas i).len.toNat ↔ m₀.Fits (m.maps.vmas i).file (m.maps.vmas i).len.toNat := by
      constructor
      · rintro ⟨h1, h2, h3⟩
        rw [← hfile] at h1 h2 h3
        exact ⟨h1, by rw [ht.data]; exact h2, h3⟩
      · rintro ⟨h1, h2, h3⟩
        rw [hfile] at h1 h2 h3
        exact ⟨h1, by rw [ht.data] at h2; exact h2, h3⟩
    have hopen : (m.file (m.maps.vmas i).file).writable =
        (m₀.file (m.maps.vmas i).file).writable := by
      rw [hfile, hold]
    constructor
    · rintro ⟨hw, hf⟩
      exact ⟨hopen ▸ hw, by rw [hseek]; exact hfits.mp hf⟩
    · rintro ⟨hw, hf⟩
      rw [hseek] at hf
      exact ⟨hopen ▸ hw, hfits.mpr hf⟩
  constructor
  · rintro ⟨h1, h2⟩
    exact ⟨htakes.mp h1, hreads ▸ h2⟩
  · rintro ⟨h1, h2⟩
    exact ⟨htakes.mpr h1, hreads.trans h2⟩

/-- The disk has the blocks if and only if it has those that the file takes. -/
theorem Dirty.room_iff {m₀ : Machine} {c : UInt8} {bs : List UInt8} {w : Int}
    (h : s.Dirty m addr i)
    (hload : s.firstByte m i = .ok (c, m₀))
    (hflush : m₀.Flushes (m.maps.vmas i) bs m₁) (hok : m₀.writeBack addr = .ok (w, m')) :
    s.Room m (m.maps.vmas i) ↔
      held m' (m.maps.vmas i).file ≤ s.free + held m₀ (m.maps.vmas i).file := by
  have ht := h.touched hload
  obtain ⟨hfound, -⟩ := ht.dirty h
  have hpos := h.len_pos
  have hold := seek_entry m i
  have hfileData : m₀.fileData (m.maps.vmas i) = m.fileData (m.maps.vmas i) := by
    unfold Machine.fileData
    rw [ht.file, ht.data, hold]
  have hafter := (Machine.writeBack_iff hfound hpos h.len_lt).mpr ⟨bs, m₁, hflush, rfl, rfl⟩
  cases hok.symm.trans hafter.1
  obtain ⟨hfile, hdata⟩ := (Machine.loads_locked rfl (m.maps.vmas i).addr
    (m.maps.vmas i).len.toNat).2 _ hflush.reads
  simp only at hfile hdata
  have hlength := Machine.length_loads hflush.reads
  have hoff := hflush.takes.fits.off_le
  rw [Machine.seek_off] at hoff
  have hin : (u32 (m.maps.vmas i).offset).toNat ≤ (m₀.fileData (m.maps.vmas i)).length := by
    have hle : u32 (m.maps.vmas i).offset ≤ ((m₀.fileData (m.maps.vmas i)).length : Int) := hoff
    omega
  have hheld : held (m₁.rewrite (m.maps.vmas i).file (splice (m₀.fileData (m.maps.vmas i))
      (u32 (m.maps.vmas i).offset).toNat bs) (u32 (m.maps.vmas i).offset +
        (m.maps.vmas i).len.toNat)) (m.maps.vmas i).file =
      blocks (max (m₀.fileData (m.maps.vmas i)).length
        ((u32 (m.maps.vmas i).offset).toNat + (m.maps.vmas i).len.toNat)) := by
    unfold held
    rw [Machine.rewrite_file_self, Machine.rewrite_data_self, length_splice bs hin, hlength]
  rw [hheld, hfileData]
  unfold held Room
  rw [show m₀.data (m₀.file (m.maps.vmas i).file).ip = m.fileData (m.maps.vmas i) from hfileData]

/-- A write-back succeeds if the file takes the mapping, its memory can be read under the lock, and
the disk has the blocks. -/
theorem Dirty.ok_of_flushes {bs : List UInt8} (h : s.Dirty m addr i)
    (hflush : s.Flushes m (m.maps.vmas i) bs m₁) (hroom : s.Room m (m.maps.vmas i)) :
    ∃ m₀ m' s' w, s.Touched m i m₀ ∧ m₀.Flushes (m.maps.vmas i) bs m₁ ∧
      s.writeBack m addr = .ok (w, m', s') ∧ m₀.writeBack addr = .ok (w, m') := by
  have hpos := h.len_pos
  have hreads := hflush.reads
  obtain ⟨n, hn⟩ : ∃ n, (m.maps.vmas i).len.toNat = n + 1 :=
    ⟨(m.maps.vmas i).len.toNat - 1, by omega⟩
  rw [hn, loads_again] at hreads
  cases hload : s.firstByte m i with
  | error e =>
    rw [firstByte] at hload
    rw [hload] at hreads
    cases hreads
  | ok r =>
    obtain ⟨c, m₀⟩ := r
    have ht := h.touched hload
    have hflush₀ := (h.flushes_iff hload).mp hflush
    obtain ⟨hok, -⟩ := (Machine.writeBack_iff (ht.dirty h).1 hpos h.len_lt).mpr
      ⟨bs, m₁, hflush₀, rfl, rfl⟩
    have hheld := (h.room_iff hload hflush₀ hok).mp hroom
    have hback : s.writeBack m addr = s.writeBack m₀ addr := by
      rw [h.writeBack_touch (starts_of_takes hflush.takes), hload]
    have hs := (ht.writeBack_iff h).mpr ⟨hok, hheld, rfl⟩
    exact ⟨m₀, _, _, _, ht, hflush₀, hback.trans hs, hok⟩

/-- The files stay what they are. -/
theorem umunmap_regular {r : Int} (h : s.umunmap m addr length = .ok (r, m', s')) :
    s'.regular = s.regular := by
  have hfilewrite {m m' : Machine} {f : UInt32} {addr n w : Int} {s' : Storage}
      (h : s.filewrite m f addr n = .ok (w, m', s')) : s'.regular = s.regular := by
    unfold filewrite at h
    split at h
    · cases h
      rfl
    · split at h
      · cases hother : s.other m f addr n with
        | error e =>
          rw [hother] at h
          cases h
        | ok r =>
          rw [hother] at h
          cases h
          rfl
      · split at h
        · cases h
          rfl
        · split at h
          · cases h
          · cases h
            rfl
  cases hwrite : s.writeBack m addr with
  | error e =>
    unfold umunmap at h
    rw [hwrite] at h
    cases h
  | ok r =>
    obtain ⟨w, m₁, s₁⟩ := r
    unfold umunmap at h
    rw [hwrite] at h
    cases h
    unfold writeBack at hwrite
    split at hwrite
    · cases hwrite
      rfl
    · exact hfilewrite hwrite

end Flushing

end Storage

end Cs537.P5
