import Cs537.Lib.Bytes
import Cs537.Lib.RefCache
import Cs537.Lib.Tokens
import Cs537.P2.Lastcat

/-!
# The inode references of `exec`

`exec` gives back the reference to the program file on every exit. For `cat` it also looks up each
argument with `namei`, to see whether the file exists, and never calls `iput` for the inodes it is
given: every `cat` of an existing file leaves a reference behind in the inode cache, which has 50
places. Other processes are left out, and with them what `iput` frees on the disk when the last
reference to a file without links goes: no such file is found by a lookup.
-/

namespace Cs537.P2.Refs

open Cs537.Lib

/-! ## The file system -/

/-- An inode: its device and number. -/
abbrev Ino := Nat × Nat

/-- The in-memory inodes, of which there are `NINODE`. -/
abbrev ICache := RefCache Ino

/-- The types of `stat.h:1-3`. -/
inductive InodeType where
  | dir
  | file
  | dev
  deriving DecidableEq

/-- What `exec` reads of `struct elfhdr`. -/
structure Elfhdr where
  magic : UInt32
  phoff : UInt32
  phnum : UInt16

/-- What `exec` reads of `struct proghdr`. -/
structure Proghdr where
  type : UInt32
  off : UInt32
  vaddr : UInt32
  filesz : UInt32
  memsz : UInt32

/-- The contents of the disk: the types of the inodes (a free one has none), the entries of the
directories, and the headers that `readi` returns, unless it returns fewer bytes. -/
structure FileSystem where
  type : Ino → Option InodeType
  entries : Ino → List (Nat × Bytes)
  elf : Ino → Option Elfhdr
  ph : Ino → UInt32 → Option Proghdr

/-- `iget(ROOTDEV, ROOTINO)` is for this inode. -/
def root : Ino := (1, 1)

/-- `ilock` (`fs.c:288-312`): the inode and its type; undefined where it panics. -/
def ilock (fs : FileSystem) (icache : ICache) (k : Nat) : Option (Ino × InodeType) :=
  match icache[k]? with
  | none => none
  | some ip => if ip.ref < 1 then none else (fs.type ip.key).map fun type => (ip.key, type)

/-- The loop of `dirlookup` (`fs.c:533-545`): the number of the first entry of that name. -/
def findEntry (name : Bytes) : List (Nat × Bytes) → Option Nat
  | [] => none
  | (inum, deName) :: entries =>
    if inum = 0 then findEntry name entries
    else if strncmp name deName 14 = 0 then some inum
    else findEntry name entries

/-- `dirlookup`: the place of the inode, or none if there is no such entry. -/
def dirlookup (fs : FileSystem) (dp : Ino) (name : Bytes) (c : ICache) :
    Option (Option Nat × ICache) :=
  match findEntry name (fs.entries dp) with
  | none => some (none, c)
  | some inum => (c.get (dp.1, inum)).map fun (k, c) => (some k, c)

/-- `skipelem` (`fs.c:595-618`): the element, of which `name` keeps `DIRSIZ` bytes, and the path
behind it. -/
def skipelem (path : Bytes) : Option (Bytes × Bytes) :=
  match path.dropWhile (· == 47) with
  | [] => none
  | c :: s => some (((c :: s).takeWhile fun c => !(c == 47)).take 14,
      ((c :: s).dropWhile fun c => !(c == 47)).dropWhile (· == 47))

/-- The elements that `skipelem` returns until it finds none. -/
def pathElems (path : Bytes) : List Bytes := (words (· == 47) path).map (·.take 14)

theorem pathElems_eq (path : Bytes) : pathElems path =
    match skipelem path with
    | none => []
    | some (name, rest) => name :: pathElems rest := by
  rcases blank_or_word (· == 47) path with hblank | ⟨gap, w, rest, rfl, hgap, hne, hfree, hrest⟩
  · have hnone : skipelem path = none := by
      rw [skipelem, List.dropWhile_eq_nil_iff.mpr hblank]
    have hwords := words_append_of_delim hblank []
    rw [List.append_nil] at hwords
    rw [hnone, pathElems, hwords]
    rfl
  · have hspan := span_word hfree hrest
    obtain ⟨c, w', rfl⟩ := List.exists_cons_of_ne_nil hne
    have hskip : skipelem (gap ++ (c :: w' ++ rest)) =
        some ((c :: w').take 14, rest.dropWhile (· == 47)) := by
      have hc : (c == 47) = false := hfree c List.mem_cons_self
      rw [skipelem, List.dropWhile_append_of_pos hgap, List.cons_append,
        List.dropWhile_cons_of_neg (by simp [hc])]
      simp only [← List.cons_append, hspan.1, hspan.2]
    have hgap' : ∀ c ∈ rest.takeWhile (· == 47), (c == 47) = true := by
      intro c hc
      exact List.mem_takeWhile_imp (p := (· == 47)) hc
    have hslashes := words_append_of_delim hgap' (rest.dropWhile (· == 47))
    rw [List.takeWhile_append_dropWhile] at hslashes
    rw [hskip, pathElems, words_append_of_delim hgap, words_append_of_free hne hfree hrest,
      hslashes]
    rfl

/-- The loop of `namex` (`fs.c:634-651`) over the elements of the path, with `nameiparent` 0: the
place of the inode, or none if there is no such file; undefined where the kernel panics. -/
def namex (fs : FileSystem) : List Bytes → Nat → ICache → Option (Option Nat × ICache)
  | [], ip, c => some (some ip, c)
  | name :: names, ip, c =>
    match ilock fs c ip with
    | none => none
    | some (dp, type) =>
      if type ≠ .dir then (c.put ip).map fun c => (none, c)
      else match dirlookup fs dp name c with
        | none => none
        | some (none, c) => (c.put ip).map fun c => (none, c)
        | some (some next, c) => (c.put ip).bind fun c => namex fs names next c

/-- `namei`, the current directory being in place `cwd`. -/
def namei (fs : FileSystem) (cwd : Nat) (path : Bytes) (c : ICache) :
    Option (Option Nat × ICache) :=
  if (cstr path).head? = some 47 then
    (c.get root).bind fun (ip, c) => namex fs (pathElems (cstr path)) ip c
  else (c.dup cwd).bind fun c => namex fs (pathElems (cstr path)) cwd c

/-! ## The program and its memory -/

/-- The functions of `vm.c` that `exec` calls, for memories of some type. -/
structure Vm (μ : Type) where
  setupkvm : μ → Option μ
  allocuvm : μ → UInt32 → UInt32 → UInt32 × μ
  loaduvm : μ → UInt32 → Ino → UInt32 → UInt32 → Int × μ
  clearpteu : μ → UInt32 → μ
  copyout : μ → UInt32 → Bytes → Int × μ

variable {μ : Type}

/-- The loop over the program headers (`exec.c:50-65`); none where it goes to `bad`. -/
def loadSegments (fs : FileSystem) (vm : Vm μ) (ip : Ino) :
    Nat → UInt32 → UInt32 → μ → Option (UInt32 × μ)
  | 0, _, sz, m => some (sz, m)
  | phnum + 1, off, sz, m =>
    match fs.ph ip off with
    | none => none
    | some ph =>
      if ph.type ≠ 1 then loadSegments fs vm ip phnum (off + 32) sz m
      else if ph.memsz < ph.filesz then none
      else if ph.vaddr + ph.memsz < ph.vaddr then none
      else
        let (sz, m) := vm.allocuvm m sz (ph.vaddr + ph.memsz)
        if sz = 0 then none
        else if ph.vaddr % 4096 ≠ 0 then none
        else
          let (r, m) := vm.loaduvm m ph.vaddr ip ph.off ph.filesz
          if r < 0 then none else loadSegments fs vm ip phnum (off + 32) sz m

/-- The program is loaded (`exec.c:39-65`); none where this goes to `bad`. -/
def load (fs : FileSystem) (vm : Vm μ) (ip : Ino) (m : μ) : Option (UInt32 × μ) :=
  match fs.elf ip with
  | none => none
  | some elf =>
    if elf.magic ≠ 0x464C457F then none
    else (vm.setupkvm m).bind fun m => loadSegments fs vm ip elf.phnum.toNat elf.phoff 0 m

/-- The loop over `argv` (`exec.c:79-86`): the stack pointer, and the pointers to the strings. -/
def pushArgs (vm : Vm μ) : List Bytes → Nat → UInt32 → μ → Option (UInt32 × List UInt32 × μ)
  | [], _, sp, m => some (sp, [], m)
  | arg :: args, argc, sp, m =>
    if argc ≥ 32 then none
    else
      let sp := (sp - (UInt32.ofNat (cstr arg).length + 1)) &&& ~~~3
      let (r, m) := vm.copyout m sp (cstr arg ++ [0])
      if r < 0 then none
      else (pushArgs vm args (argc + 1) sp m).map fun (last, ptrs, m) => (last, sp :: ptrs, m)

/-- The two pages of the stack with the strings (`exec.c:72-87`). -/
def userStack (vm : Vm μ) (argv : List Bytes) (sz : UInt32) (m : μ) :
    Option (UInt32 × List UInt32 × μ) :=
  let sz := (sz + 4095) &&& ~~~4095
  let (sz, m) := vm.allocuvm m sz (sz + 2 * 4096)
  if sz = 0 then none
  else pushArgs vm argv 0 sz (vm.clearpteu m (sz - 2 * 4096))

/-- The array `ustack` (`exec.c:85-91`). -/
def ustack (sp : UInt32) (ptrs : List UInt32) : List UInt32 :=
  let argc := UInt32.ofNat ptrs.length
  [0xffffffff, argc, sp - (argc + 1) * 4] ++ ptrs ++ [0]

/-! ## `exec` -/

/-- A call of `exec`: the files and the memory it finds, the inode of the current directory with
its place, the arguments, and the string at address 0 of the calling process. -/
structure Call (μ : Type) where
  fs : FileSystem
  vm : Vm μ
  mem : μ
  cwd : Nat
  dir : Ino
  path : Bytes
  argv : List Bytes
  atNull : Bytes

/-- The loop over the arguments of `cat` (`exec.c:99-104`): some argument is not found. -/
def lookArgs (fs : FileSystem) (cwd : Nat) : List Bytes → ICache → Option (Bool × ICache)
  | [], c => some (false, c)
  | arg :: args, c =>
    match namei fs cwd arg c with
    | none => none
    | some (none, c) => some (true, c)
    | some (some _, c) => lookArgs fs cwd args c

/-- What is done for `cat` (`exec.c:93-108`). -/
def catArgs (call : Call μ) (s : CatVars) (c : ICache) : Option (CatVars × ICache) :=
  if strncmp (call.argv.headD call.atNull) (ascii "cat") 4 = 0 then
    let s := { s with indicator := 1 }
    if 1 < call.argv.length then
      let s := { s with catS := strncpy (cstr (call.argv.getLastD [])) 1024, argNum := 1 }
      (lookArgs call.fs call.cwd call.argv.tail c).map fun (missing, c) =>
        (if missing then { s with fileDNE := 1 } else s, c)
    else some ({ s with argNum := 0 }, c)
  else some (s, c)

/-- `exec`: what it returns, the variables of `cat` and the inode cache; undefined where the kernel
panics. -/
def exec (call : Call μ) (s : CatVars) (c : ICache) : Option (Int × CatVars × ICache) :=
  match namei call.fs call.cwd call.path c with
  | none => none
  | some (none, c) => some (-1, s, c)
  | some (some ip, c) =>
    match ilock call.fs c ip with
    | none => none
    | some (file, _) =>
      match load call.fs call.vm file call.mem with
      | none => (c.put ip).map fun c => (-1, s, c)
      | some (sz, m) =>
        match c.put ip with
        | none => none
        | some c =>
          match userStack call.vm call.argv sz m with
          | none => some (-1, s, c)
          | some (sp, ptrs, m) =>
            (catArgs call s c).map fun (s, c) =>
              let words := ustack sp ptrs
              let (r, _) := call.vm.copyout m (sp - UInt32.ofNat words.length * 4)
                (words.flatMap le32)
              (if r < 0 then -1 else 0, s, c)

/-- Calls of `exec` one after another. -/
def execs : List (Call μ) → CatVars → ICache → Option (List Int × CatVars × ICache)
  | [], s, c => some ([], s, c)
  | call :: calls, s, c =>
    (exec call s c).bind fun (r, s, c) => (execs calls s c).map fun (rs, s, c) => (r :: rs, s, c)

/-! ## What a lookup finds -/

/-- The inode at the end of a path, by the contents of the directories alone. -/
def resolve (fs : FileSystem) : List Bytes → Ino → Option Ino
  | [], a => some a
  | name :: names, a =>
    if fs.type a = some .dir then
      (findEntry name (fs.entries a)).bind fun inum => resolve fs names (a.1, inum)
    else none

/-- The file of a path, if there is one. -/
def fileOf (fs : FileSystem) (dir : Ino) (path : Bytes) : Option Ino :=
  resolve fs (pathElems (cstr path)) (if (cstr path).head? = some 47 then root else dir)

/-- A lookup has ended: with one more reference to what it found, or as before. -/
def Looked (c c' : ICache) : Option Nat → Option Ino → Prop
  | some k, some a => RefCache.OneMore c c' k a
  | none, none => RefCache.Gains c c' []
  | _, _ => False

theorem ilock_of_oneMore {fs : FileSystem} {c₀ c : ICache} {k : Nat} {a dp : Ino}
    {type : InodeType} (h : RefCache.OneMore c₀ c k a) (hlock : ilock fs c k = some (dp, type)) :
    dp = a ∧ fs.type a = some type := by
  obtain ⟨n, hn⟩ := h.held
  rw [ilock, hn] at hlock
  simp only [Nat.lt_one_iff, Nat.add_eq_zero_iff, one_ne_zero, and_false,
    if_false] at hlock
  obtain ⟨type', htype, heq⟩ := Option.map_eq_some_iff.mp hlock
  obtain ⟨rfl, rfl⟩ := Prod.mk.inj heq
  exact ⟨rfl, htype⟩

theorem dirlookup_of_none {fs : FileSystem} {dp : Ino} {name : Bytes}
    (h : findEntry name (fs.entries dp) = none) (c : ICache) :
    dirlookup fs dp name c = some (none, c) := by
  rw [dirlookup, h]

theorem dirlookup_of_some {fs : FileSystem} {dp : Ino} {name : Bytes} {inum : Nat}
    (h : findEntry name (fs.entries dp) = some inum) (c : ICache) :
    dirlookup fs dp name c = (c.get (dp.1, inum)).map fun (k, c) => (some k, c) := by
  rw [dirlookup, h]

/-- The walk along a path keeps one reference, which is to the inode it has reached. -/
theorem namex_looked {fs : FileSystem} {c₀ : ICache} (names : List Bytes) {k : Nat} {a : Ino}
    {c c' : ICache} {r : Option Nat} (hmore : RefCache.OneMore c₀ c k a)
    (h : namex fs names k c = some (r, c')) : Looked c₀ c' r (resolve fs names a) := by
  induction names generalizing k a c with
  | nil =>
    obtain ⟨rfl, rfl⟩ := Prod.mk.inj (Option.some.inj h)
    exact hmore
  | cons name names ih =>
    rw [namex] at h
    cases hlock : ilock fs c k with
    | none =>
      rw [hlock] at h
      cases h
    | some locked =>
      obtain ⟨dp, type⟩ := locked
      obtain ⟨rfl, htype⟩ := ilock_of_oneMore hmore hlock
      simp only [hlock] at h
      by_cases hdir : type = .dir
      · subst hdir
        rw [if_neg (by simp)] at h
        rw [resolve, if_pos htype]
        cases hfind : findEntry name (fs.entries dp) with
        | none =>
          rw [dirlookup_of_none hfind] at h
          obtain ⟨d, hput, heq⟩ := Option.map_eq_some_iff.mp h
          obtain ⟨rfl, rfl⟩ := Prod.mk.inj heq
          exact hmore.put hput
        | some inum =>
          rw [dirlookup_of_some hfind] at h
          cases hget : c.get (dp.1, inum) with
          | none =>
            rw [hget] at h
            cases h
          | some next =>
            rw [hget] at h
            obtain ⟨d, hput, hrest⟩ := Option.bind_eq_some_iff.mp h
            exact ih (hmore.next (RefCache.oneMore_of_get hget) hput) hrest
      · rw [if_pos hdir] at h
        obtain ⟨e, hput, heq⟩ := Option.map_eq_some_iff.mp h
        obtain ⟨rfl, rfl⟩ := Prod.mk.inj heq
        rw [resolve, if_neg (by rw [htype]; exact fun heq => hdir (Option.some.inj heq))]
        exact hmore.put hput

theorem namei_looked {fs : FileSystem} {cwd : Nat} {dir : Ino} {path : Bytes} {c c' : ICache}
    {r : Option Nat} (hcwd : c.Held cwd dir) (h : namei fs cwd path c = some (r, c')) :
    Looked c c' r (fileOf fs dir path) := by
  unfold namei at h
  unfold fileOf
  split at h
  · rename_i hslash
    obtain ⟨⟨k, d⟩, hget, hrest⟩ := Option.bind_eq_some_iff.mp h
    rw [if_pos hslash]
    exact namex_looked _ (RefCache.oneMore_of_get hget) hrest
  · rename_i hslash
    obtain ⟨d, hdup, hrest⟩ := Option.bind_eq_some_iff.mp h
    rw [if_neg hslash]
    exact namex_looked _ (RefCache.oneMore_of_dup hcwd hdup) hrest

/-! ## The references that stay -/

/-- The inodes of the arguments up to the first one that is not found. -/
def found (fs : FileSystem) (dir : Ino) : List Bytes → List Ino
  | [] => []
  | arg :: args => match fileOf fs dir arg with
    | none => []
    | some a => a :: found fs dir args

theorem lookArgs_gains {fs : FileSystem} {cwd : Nat} {dir : Ino} (args : List Bytes)
    {c c' : ICache} {missing : Bool} (hcwd : c.Held cwd dir)
    (h : lookArgs fs cwd args c = some (missing, c')) :
    RefCache.Gains c c' (found fs dir args) ∧
      missing = args.any fun arg => (fileOf fs dir arg).isNone := by
  induction args generalizing c with
  | nil =>
    obtain ⟨rfl, rfl⟩ := Prod.mk.inj (Option.some.inj h)
    exact ⟨RefCache.gains_refl c, rfl⟩
  | cons arg args ih =>
    rw [lookArgs] at h
    cases hnamei : namei fs cwd arg c with
    | none =>
      rw [hnamei] at h
      cases h
    | some looked =>
      obtain ⟨r, d⟩ := looked
      have hlooked := namei_looked hcwd hnamei
      rw [hnamei] at h
      rw [found, List.any_cons]
      cases hfile : fileOf fs dir arg with
      | none =>
        rw [hfile] at hlooked
        cases r with
        | none =>
          obtain ⟨rfl, rfl⟩ := Prod.mk.inj (Option.some.inj h)
          exact ⟨hlooked, rfl⟩
        | some k => exact hlooked.elim
      | some a =>
        rw [hfile] at hlooked
        cases r with
        | none => exact hlooked.elim
        | some k =>
          obtain ⟨hgains, hmissing⟩ := ih (hlooked.gains.held hcwd) h
          exact ⟨hlooked.gains.trans hgains, hmissing⟩

namespace Call

variable (call : Call μ)

/-- The call gets as far as `exec.c:93`: there is a program, it loads, and the stack with the
arguments is there. -/
def loads : Bool :=
  ((fileOf call.fs call.dir call.path).bind fun file =>
    (load call.fs call.vm file call.mem).bind fun (sz, m) =>
      userStack call.vm call.argv sz m).isSome

/-- The call as `getlastcat` sees it. -/
def recorded : ExecCall where
  argv := call.argv
  atNull := call.atNull
  loads := call.loads
  namei path := (fileOf call.fs call.dir path).isSome

/-- The call looks up a first argument of `cat`, and it exists. -/
def Leaks : Prop :=
  call.loads = true ∧ call.recorded.isCat = true ∧
    ∃ arg ∈ call.argv[1]?, (fileOf call.fs call.dir arg).isSome

/-- The inodes whose references the call keeps. -/
def leaked : List Ino :=
  if call.loads && call.recorded.isCat then found call.fs call.dir call.argv.tail else []

theorem leaked_eq_nil_iff : call.leaked = [] ↔ ¬ call.Leaks := by
  unfold leaked Leaks
  cases call.loads with
  | false => simp
  | true =>
    cases call.recorded.isCat with
    | false => simp
    | true =>
      match hargv : call.argv with
      | [] => simp [found]
      | [name] => simp [found]
      | name :: arg :: args =>
        cases hfile : fileOf call.fs call.dir arg <;> simp [found, hfile]

end Call

theorem fileOf_cstr (fs : FileSystem) (dir : Ino) (path : Bytes) :
    fileOf fs dir (cstr path) = fileOf fs dir path := by
  rw [fileOf, cstr_of_zero_notMem (zero_notMem_cstr path), fileOf]

/-- What is done for `cat` leaves the variables that `getlastcat` reads, and the references. -/
theorem catArgs_gains {call : Call μ} {s s' : CatVars} {c c' : ICache}
    (hcwd : c.Held call.cwd call.dir) (hloads : call.loads = true)
    (h : catArgs call s c = some (s', c')) :
    RefCache.Gains c c' call.leaked ∧ s' = P2.exec call.recorded s := by
  unfold catArgs at h
  unfold Call.leaked P2.exec
  rw [show call.recorded.loads = true from hloads, hloads, Bool.true_and]
  by_cases hcat : strncmp (call.argv.headD call.atNull) (ascii "cat") 4 = 0
  · have hrecorded : call.recorded.isCat = true := decide_eq_true hcat
    rw [if_pos hcat] at h
    rw [if_pos hrecorded, if_pos hrecorded]
    by_cases hargs : 1 < call.argv.length
    · simp only [if_pos hargs] at h
      obtain ⟨⟨missing, d⟩, hlook, heq⟩ := Option.map_eq_some_iff.mp h
      obtain ⟨rfl, rfl⟩ := Prod.mk.inj heq
      obtain ⟨hgains, hmissing⟩ := lookArgs_gains _ hcwd hlook
      refine ⟨hgains, ?_⟩
      have hsame : call.recorded.missing = missing := by
        rw [hmissing]
        unfold ExecCall.missing Call.recorded
        simp only [fileOf_cstr, Option.not_isSome]
      rw [hsame, if_pos (show 1 < call.recorded.argv.length from hargs)]
      rfl
    · simp only [if_neg hargs, Option.some.injEq, Prod.mk.injEq] at h
      obtain ⟨rfl, rfl⟩ := h
      have hnone : call.argv.tail = [] := List.eq_nil_of_length_eq_zero (by
        rw [List.length_tail]
        omega)
      rw [hnone, if_neg (show ¬ 1 < call.recorded.argv.length from hargs)]
      exact ⟨RefCache.gains_refl c, rfl⟩
  · have hrecorded : call.recorded.isCat = false := decide_eq_false hcat
    rw [if_neg hcat] at h
    obtain ⟨rfl, rfl⟩ := Prod.mk.inj (Option.some.inj h)
    rw [hrecorded]
    exact ⟨RefCache.gains_refl c, rfl⟩

/-- The exits of `exec`: there is no such file, the program is not loaded, there is no stack, or
`exec.c:93` is reached. -/
inductive Call.Exits (call : Call μ) (s : CatVars) (c : ICache) : CatVars → ICache → Prop
  | noFile {c' : ICache} : namei call.fs call.cwd call.path c = some (none, c') →
      call.Exits s c s c'
  | noProgram {d c' : ICache} {ip : Nat} {file : Ino} {type : InodeType} :
      namei call.fs call.cwd call.path c = some (some ip, d) →
      ilock call.fs d ip = some (file, type) → load call.fs call.vm file call.mem = none →
      d.put ip = some c' → call.Exits s c s c'
  | noStack {d c' : ICache} {ip : Nat} {file : Ino} {type : InodeType} {sz : UInt32} {m : μ} :
      namei call.fs call.cwd call.path c = some (some ip, d) →
      ilock call.fs d ip = some (file, type) →
      load call.fs call.vm file call.mem = some (sz, m) → d.put ip = some c' →
      userStack call.vm call.argv sz m = none → call.Exits s c s c'
  | reached {d e c' : ICache} {ip : Nat} {file : Ino} {type : InodeType} {sz : UInt32} {m : μ}
      {stack : UInt32 × List UInt32 × μ} {s' : CatVars} :
      namei call.fs call.cwd call.path c = some (some ip, d) →
      ilock call.fs d ip = some (file, type) →
      load call.fs call.vm file call.mem = some (sz, m) → d.put ip = some e →
      userStack call.vm call.argv sz m = some stack → catArgs call s e = some (s', c') →
      call.Exits s c s' c'

theorem exec_exits {call : Call μ} {s s' : CatVars} {c c' : ICache} {r : Int}
    (h : exec call s c = some (r, s', c')) : call.Exits s c s' c' := by
  unfold exec at h
  cases hnamei : namei call.fs call.cwd call.path c with
  | none =>
    rw [hnamei] at h
    cases h
  | some looked =>
    obtain ⟨_ | ip, d⟩ := looked
    · simp only [hnamei, Option.some.injEq, Prod.mk.injEq] at h
      obtain ⟨-, rfl, rfl⟩ := h
      exact .noFile hnamei
    cases hlock : ilock call.fs d ip with
    | none =>
      simp only [hnamei, hlock] at h
      cases h
    | some locked =>
      obtain ⟨file, type⟩ := locked
      simp only [hnamei, hlock] at h
      cases hload : load call.fs call.vm file call.mem with
      | none =>
        rw [hload] at h
        obtain ⟨e, hput, heq⟩ := Option.map_eq_some_iff.mp h
        simp only [Prod.mk.injEq] at heq
        obtain ⟨-, rfl, rfl⟩ := heq
        exact .noProgram hnamei hlock hload hput
      | some image =>
        obtain ⟨sz, m⟩ := image
        simp only [hload] at h
        cases hput : d.put ip with
        | none =>
          simp only [hput] at h
          cases h
        | some e =>
          simp only [hput] at h
          cases hstack : userStack call.vm call.argv sz m with
          | none =>
            simp only [hstack, Option.some.injEq, Prod.mk.injEq] at h
            obtain ⟨-, rfl, rfl⟩ := h
            exact .noStack hnamei hlock hload hput hstack
          | some stack =>
            rw [hstack] at h
            obtain ⟨⟨s₁, c₁⟩, hcat, heq⟩ := Option.map_eq_some_iff.mp h
            simp only [Prod.mk.injEq] at heq
            obtain ⟨-, rfl, rfl⟩ := heq
            exact .reached hnamei hlock hload hput hstack hcat

/-- The file of a path that `namei` has found. -/
theorem locked_file {fs : FileSystem} {cwd : Nat} {dir file : Ino} {path : Bytes} {c d : ICache}
    {ip : Nat} {type : InodeType} (hcwd : c.Held cwd dir)
    (hnamei : namei fs cwd path c = some (some ip, d)) (hlock : ilock fs d ip = some (file, type)) :
    fileOf fs dir path = some file ∧ RefCache.OneMore c d ip file := by
  have hlooked := namei_looked hcwd hnamei
  cases hfile : fileOf fs dir path with
  | none =>
    rw [hfile] at hlooked
    exact hlooked.elim
  | some a =>
    rw [hfile] at hlooked
    obtain ⟨rfl, -⟩ := ilock_of_oneMore hlooked hlock
    exact ⟨rfl, hlooked⟩

/-- On every exit the references are those before the call and the ones of `cat`. -/
theorem exec_gains {call : Call μ} {s s' : CatVars} {c c' : ICache} {r : Int}
    (hcwd : c.Held call.cwd call.dir) (h : exec call s c = some (r, s', c')) :
    RefCache.Gains c c' call.leaked ∧ s' = P2.exec call.recorded s := by
  have hfails (hloads : call.loads = false) (hgains : RefCache.Gains c c' []) :
      RefCache.Gains c c' call.leaked ∧ s = P2.exec call.recorded s := by
    rw [Call.leaked, P2.exec, show call.recorded.loads = false from hloads, hloads]
    exact ⟨hgains, rfl⟩
  cases exec_exits h with
  | noFile hnamei =>
    have hlooked := namei_looked hcwd hnamei
    cases hfile : fileOf call.fs call.dir call.path with
    | none =>
      rw [hfile] at hlooked
      exact hfails (by simp [Call.loads, hfile]) hlooked
    | some a =>
      rw [hfile] at hlooked
      exact hlooked.elim
  | noProgram hnamei hlock hload hput =>
    obtain ⟨hfile, hmore⟩ := locked_file hcwd hnamei hlock
    exact hfails (by simp [Call.loads, hfile, hload]) (hmore.put hput)
  | noStack hnamei hlock hload hput hstack =>
    obtain ⟨hfile, hmore⟩ := locked_file hcwd hnamei hlock
    exact hfails (by simp [Call.loads, hfile, hload, hstack]) (hmore.put hput)
  | reached hnamei hlock hload hput hstack hcat =>
    obtain ⟨hfile, hmore⟩ := locked_file hcwd hnamei hlock
    have hback := hmore.put hput
    have hloads : call.loads = true := by simp [Call.loads, hfile, hload, hstack]
    obtain ⟨hgains, hvars⟩ := catArgs_gains (hback.held hcwd) hloads hcat
    exact ⟨hback.trans hgains, hvars⟩

/-- Over a run the references that were left behind add up. -/
theorem execs_gains (calls : List (Call μ)) {s s' : CatVars} {c c' : ICache} {rs : List Int}
    (hcwd : ∀ call ∈ calls, c.Held call.cwd call.dir)
    (h : execs calls s c = some (rs, s', c')) :
    RefCache.Gains c c' (calls.flatMap Call.leaked) ∧
      s' = calls.foldl (fun s call => P2.exec call.recorded s) s := by
  induction calls generalizing s c rs s' with
  | nil =>
    simp only [execs, Option.some.injEq, Prod.mk.injEq] at h
    obtain ⟨-, rfl, rfl⟩ := h
    exact ⟨RefCache.gains_refl c, rfl⟩
  | cons call calls ih =>
    obtain ⟨⟨r, s₁, c₁⟩, hexec, hrest⟩ := Option.bind_eq_some_iff.mp h
    obtain ⟨⟨rs₁, s₂, c₂⟩, hexecs, heq⟩ := Option.map_eq_some_iff.mp hrest
    simp only [Prod.mk.injEq] at heq
    obtain ⟨-, rfl, rfl⟩ := heq
    obtain ⟨hgains, hvars⟩ := exec_gains (hcwd call List.mem_cons_self) hexec
    have hheld : ∀ next ∈ calls, c₁.Held next.cwd next.dir := by
      intro next hnext
      exact hgains.held (hcwd next (List.mem_cons_of_mem call hnext))
    obtain ⟨hrest, hvars'⟩ := ih hheld hexecs
    refine ⟨hgains.trans hrest, ?_⟩
    rw [hvars', hvars, List.foldl_cons]

/-- After any number of calls every inode has the references it had before, and as many places of
the cache are free, exactly if none of the calls finds a first argument of `cat`. -/
theorem execs_balanced_iff {calls : List (Call μ)} {s s' : CatVars} {c c' : ICache}
    {rs : List Int} (hcwd : ∀ call ∈ calls, c.Held call.cwd call.dir)
    (h : execs calls s c = some (rs, s', c')) :
    (∀ a, c'.refOf a = c.refOf a) ∧ c'.free = c.free ↔ ∀ call ∈ calls, ¬ call.Leaks := by
  have hgains := (execs_gains calls hcwd h).1
  have hnil : calls.flatMap Call.leaked = [] ↔ ∀ call ∈ calls, ¬ call.Leaks := by
    simp only [List.flatMap_eq_nil_iff, Call.leaked_eq_nil_iff]
  rw [← hnil]
  constructor
  · intro hbalanced
    exact hgains.refOf_eq_iff.mp hbalanced.1
  · intro hleaked
    refine ⟨hgains.refOf_eq_iff.mpr hleaked, ?_⟩
    rw [hleaked] at hgains
    exact hgains.free_eq

/-- A disk with the program `cat` and the file `README`. -/
def disk : FileSystem where
  type
    | (1, 1) => some .dir
    | (1, 2) | (1, 3) => some .file
    | _ => none
  entries
    | (1, 1) => [(1, ascii "."), (1, ascii ".."), (2, ascii "cat"), (3, ascii "README")]
    | _ => []
  elf
    | (1, 2) => some { magic := 0x464C457F, phoff := 52, phnum := 1 }
    | _ => none
  ph
    | (1, 2), 52 => some { type := 1, off := 128, vaddr := 0, filesz := 2048, memsz := 4096 }
    | _, _ => none

/-- A memory in which everything succeeds. -/
def roomyVm : Vm Unit where
  setupkvm m := some m
  allocuvm m _ newsz := (newsz, m)
  loaduvm m _ _ _ _ := (0, m)
  clearpteu m _ := m
  copyout m _ _ := (0, m)

/-- `cat` with some arguments, run in the root directory. -/
def catCall (args : List Bytes) : Call Unit where
  fs := disk
  vm := roomyVm
  mem := ()
  cwd := 0
  dir := root
  path := ascii "cat"
  argv := ascii "cat" :: args
  atNull := []

/-- The inode cache with the current directory in it. -/
def rootCache : ICache := ⟨root, 1⟩ :: List.replicate 49 ⟨(0, 0), 0⟩

theorem rootCache_held : rootCache.Held 0 root := ⟨0, rfl⟩

/-- The theorem at `cat` without an argument and `cat nofile`. -/
theorem execs_balanced_iff_nofile : ∃ rs s' c',
    execs [catCall [], catCall [ascii "nofile"]] boot rootCache = some (rs, s', c') ∧
      (∀ a, c'.refOf a = rootCache.refOf a) ∧ c'.free = rootCache.free := by
  have hruns : (execs [catCall [], catCall [ascii "nofile"]] boot rootCache).isSome = true := by
    decide
  obtain ⟨⟨rs, s', c'⟩, hruns⟩ := Option.isSome_iff_exists.mp hruns
  have hcwd : ∀ call ∈ [catCall [], catCall [ascii "nofile"]],
      rootCache.Held call.cwd call.dir := by
    intro call hcall
    simp only [List.mem_cons, List.not_mem_nil, or_false] at hcall
    rcases hcall with rfl | rfl <;> exact rootCache_held
  have hfine : ∀ call ∈ [catCall [], catCall [ascii "nofile"]], ¬ call.Leaks := by
    intro call hcall
    simp only [List.mem_cons, List.not_mem_nil, or_false] at hcall
    rcases hcall with rfl | rfl
    · simp [Call.Leaks, catCall]
    · have hnofile : fileOf disk root (ascii "nofile") = none := by decide
      simp [Call.Leaks, catCall, hnofile]
  exact ⟨rs, s', c', hruns, (execs_balanced_iff hcwd hruns).mpr hfine⟩

/-- `cat README` keeps a reference to the file. -/
theorem refs_not_balanced_after_cat : ¬ ∀ (call : Call Unit) (s s' : CatVars) (c c' : ICache)
    (r : Int), c.Held call.cwd call.dir → exec call s c = some (r, s', c') →
      ∀ a, c'.refOf a = c.refOf a := by
  intro hall
  have hruns : (exec (catCall [ascii "README"]) boot rootCache).isSome = true := by decide
  obtain ⟨⟨r, s', c'⟩, hexec⟩ := Option.isSome_iff_exists.mp hruns
  have hsame := hall _ _ _ _ _ _ rootCache_held hexec (1, 3)
  have hcount := (exec_gains rootCache_held hexec).1.count (1, 3)
  have hleaked : (catCall [ascii "README"]).leaked = [(1, 3)] := by decide
  rw [hsame, hleaked] at hcount
  simp at hcount

end Cs537.P2.Refs
