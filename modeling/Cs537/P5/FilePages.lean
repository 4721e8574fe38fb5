import Cs537.P5.Faults
import Cs537.P5.LiveFiles

/-!
# What the pages of a file show

A page fault on a mapping of a file reads into the new page from wherever the offset of the open
file happens to be, not from the place of the page in the mapping, and asks for at most
`len - PGSIZE` bytes, because `stored_size` has been counted up in a copy of the entry before. So
what a page shows depends on the faults and the `read` calls before. `pages_show_file` says that the
pages show the file in every run in which each fault on the mapping reads the right bytes.
-/

namespace Cs537.P5

open Cs537.Lib

/-- What a process does: it touches a page that is not present, or reads from an open file into its
own memory below `MMAPBASE`. -/
inductive Access where
  | fault (va : Int)
  | read (f : UInt32) (n : Int)

namespace Machine

variable {m m' m₀ : Machine} {va : Int} {i : Int}

/-- `read` (`sysfile.c:70-80`), as far as the offset of the file goes. `argptr` accepts no negative
length, and a buffer only below `sz`, which is below `MMAPBASE`. -/
def sysRead (m : Machine) (f : UInt32) (n : Int) : Machine :=
  if n < 0 ∨ ¬ (m.file f).readable then m
  else
    match readi (m.data (m.file f).ip) (m.file f).off (u32 n) with
    | none => m
    | some bs => m.seek f ((m.file f).off + bs.length)

/-- The state after an access, if the process is there for it and the kernel comes back. -/
def access (m : Machine) : Access → Option Machine
  | .fault va =>
    if m.killed ∨ (m.dir.pte (pageOf va)).isSome then none
    else (m.pgftHandler none va).toOption
  | .read f n => if m.killed then none else some (m.sysRead f n)

/-- The bytes of a file that belong to page `k` of a mapping of it. -/
def pageData (data : List UInt8) (len : Int) (k : Nat) : List UInt8 :=
  (data.drop (4096 * k)).take (min pgsize (len - pgsize * k)).toNat

/-- The number of the page of an address in a mapping. -/
def pageIndex (vma : Vma) (va : Int) : Nat := (pageOf va - pageOf vma.addr).toNat

/-- A page is present and holds these bytes, and zeros behind them. -/
def ShowsPage (m : Machine) (p : Int) (bs : List UInt8) : Prop :=
  ∃ e, m.dir.pte p = some e ∧ ∀ j, 0 ≤ j → j < pgsize → m.bytes e.frame j = bs.getD j.toNat 0

/-- The byte at an address. -/
def byteAt (m : Machine) (va : Int) : Option UInt8 :=
  (m.dir.pte (pageOf va)).map fun e => m.bytes e.frame (pageOffset va)

/-- The data of the file behind a mapping. -/
def fileData (m : Machine) (vma : Vma) : List UInt8 := m.data (m.file vma.file).ip

/-- How many bytes of a file of `size` bytes belong to page `k` of a mapping of it, if positive. -/
def share (size len : Int) (k : Nat) : Int := min pgsize (min (len - pgsize * k) (size - pgsize * k))

/-- `do_map` reads what belongs to page `k`. It asks for `min(PGSIZE, len - PGSIZE)` bytes from the
offset of the open file on; a negative number stands for more bytes than any file has, and with it
`readi` fails at an offset from which the sum wraps round. -/
structure ReadsRight (m : Machine) (vma : Vma) (k : Nat) : Prop where
  entry : vma.storedSize = 0 ∧ 0 ≤ vma.len ∧ vma.len < 2 ^ 31
  file : ((m.fileData vma).length : Int) ≤ maxFileSize ∧ 0 ≤ (m.file vma.file).off
  part : 0 < share (m.fileData vma).length vma.len k →
    ¬ has vma.flags mapAnonymous ∧ has vma.prot protWrite ∧ (m.file vma.file).readable = true ∧
      (m.file vma.file).off = pgsize * k ∧
      (pgsize ≤ vma.len →
        min (min pgsize (vma.len - pgsize)) ((m.fileData vma).length - pgsize * k) =
          share (m.fileData vma).length vma.len k) ∧
      (vma.len < pgsize → ((m.fileData vma).length : Int) ≤ vma.len)
  rest : share (m.fileData vma).length vma.len k ≤ 0 →
    has vma.flags mapAnonymous ∨ (m.file vma.file).readable = false ∨
      ((m.fileData vma).length : Int) ≤ (m.file vma.file).off ∨ vma.len = pgsize ∨
      vma.len < pgsize ∧ pgsize - vma.len ≤ (m.file vma.file).off

/-- A fault reads at most one page: at most so much is asked for, or there is not more behind the
offset, or the mapping is not of a file that can be read. -/
def FillsOnePage (m : Machine) (vma : Vma) : Prop :=
  has vma.flags mapAnonymous ∨ (m.file vma.file).readable = false ∨
    ((m.fileData vma).length : Int) ≤ (m.file vma.file).off + pgsize ∨
    (0 ≤ (m.file vma.file).off ∧ (m.file vma.file).off < 2 ^ 32) ∧ vma.storedSize = 0 ∧
      pgsize ≤ vma.len ∧ vma.len < 2 ^ 31

/-- The accesses that leave the pages of mapping `i` right. A fault on the mapping is taken to it,
there are frames for it, and it reads what belongs to the page; any other fault fills at most its
own page, and does not let entry `i` grow. -/
def KeepsRight (i : Int) (m : Machine) : Access → Prop
  | .fault va =>
    (m.maps.Inside va i → mmapBase ≤ va ∧ va < kernBase ∧ m.maps.covering va = some i ∧
      m.Admitted va (m.maps.vmas i) ∧ m.Enough va ∧
      m.ReadsRight (m.maps.vmas i) (pageIndex (m.maps.vmas i) va)) ∧
    (¬ m.maps.Inside va i →
      (∀ j, m.maps.covering va = some j → m.FillsOnePage (m.maps.vmas j)) ∧
      (m.maps.covering va = none → m.maps.growable va →
        i ≠ 0 ∧ m.FillsOnePage (m.maps.grown.vmas 0)))
  | .read _ _ => True

/-- The frames are kept apart: those in use are not free, and no two pages share one. -/
structure FramesApart (m : Machine) : Prop where
  nodup : m.free.Nodup
  used : ∀ p e, m.dir.pte p = some e → e.frame ∉ m.free
  apart : ∀ p q e e', m.dir.pte p = some e → m.dir.pte q = some e' → e.frame = e'.frame → p = q

/-! ## Filling a page -/

/-- Writing into one page. -/
theorem store_page {p : Int} {e : Pte} {bs : List UInt8} {j : Int} (hpte : m.dir.pte p = some e)
    (h0 : 0 ≤ j) (hfit : j + bs.length ≤ pgsize) (hok : m.store (p * pgsize + j) bs = .ok m') :
    (∀ f, f ≠ e.frame → m'.bytes f = m.bytes f) ∧
      ∀ k, m'.bytes e.frame k =
        if j ≤ k ∧ k < j + bs.length then bs.getD (k - j).toNat 0 else m.bytes e.frame k := by
  induction bs generalizing m j with
  | nil =>
    cases hok
    refine ⟨fun _ _ => rfl, fun k => ?_⟩
    rw [if_neg (by simp only [List.length_nil]; omega)]
  | cons c cs ih =>
    rw [List.length_cons] at hfit
    have hpage : pageOf (p * pgsize + j) = p := by
      unfold pageOf pgsize at *
      omega
    have hoffset : pageOffset (p * pgsize + j) = j := by
      unfold pageOffset pgsize at *
      omega
    simp only [store, hpage, hpte, hoffset] at hok
    by_cases hwrite : has e.perm pteW = true
    · rw [if_pos hwrite, show p * pgsize + j + 1 = p * pgsize + (j + 1) by omega] at hok
      obtain ⟨hother, hthis⟩ := ih (m := { m with bytes := m.bytes.put e.frame j c }) hpte
        (by omega) (by omega) hok
      refine ⟨?_, ?_⟩
      · intro f hf
        rw [hother f hf]
        exact Function.update_of_ne hf _ _
      · intro k
        rw [hthis]
        simp only [FrameBytes.put, Function.update_self, List.length_cons]
        by_cases hk : k = j
        · rw [hk, if_neg (by omega), Function.update_self, if_pos (by omega), Int.sub_self]
          rfl
        · rw [Function.update_of_ne hk]
          by_cases hin : j + 1 ≤ k ∧ k < j + 1 + cs.length
          · rw [if_pos hin, if_pos (by omega), show (k - j).toNat = (k - (j + 1)).toNat + 1 by omega]
            rfl
          · rw [if_neg hin, if_neg (by omega)]
    · rw [if_neg hwrite] at hok
      cases hok

/-- What filling a page with at most a page of bytes does. -/
structure Filled (m m' : Machine) (f : Nat) (bs : List UInt8) : Prop where
  free : m'.free = m.free
  dir : m'.dir = m.dir
  maps : m'.maps = m.maps
  killed : m'.killed = m.killed
  data : m'.data = m.data
  file : ∀ g, (m'.file g).readable = (m.file g).readable ∧ (m'.file g).ip = (m.file g).ip
  others : bs.length ≤ 4096 → ∀ g, g ≠ f → m'.bytes g = m.bytes g
  bytes : bs.length ≤ 4096 → ∀ k, m'.bytes f k =
    if 0 ≤ k ∧ k < bs.length then bs.getD k.toNat 0 else m.bytes f k

theorem Filled.refl (m : Machine) (f : Nat) : Filled m m f [] := by
  refine ⟨rfl, rfl, rfl, rfl, rfl, fun _ => ⟨rfl, rfl⟩, fun _ _ _ => rfl, fun _ k => ?_⟩
  rw [if_neg (by simp only [List.length_nil]; omega)]

theorem seek_file (m : Machine) (f : UInt32) (off : Int) (g : UInt32) :
    ((m.seek f off).file g).readable = (m.file g).readable ∧
      ((m.seek f off).file g).ip = (m.file g).ip := by
  simp only [seek]
  by_cases hg : g = f
  · rw [hg, Function.update_self]
    exact ⟨rfl, rfl⟩
  · rw [Function.update_of_ne hg]
    exact ⟨rfl, rfl⟩

theorem fillPage_filled {vma : Vma} {e : Pte} (hpte : m.dir.pte (pageOf va) = some e)
    (hok : m.fillPage none va vma = .ok m') : Filled m m' e.frame (m.fillBytes vma) := by
  unfold fillPage at hok
  by_cases hanon : has vma.flags mapAnonymous = true
  · rw [if_pos hanon] at hok
    cases hok
    rw [show m.fillBytes vma = [] from if_pos (.inl hanon)]
    exact Filled.refl m e.frame
  · rw [if_neg hanon] at hok
    unfold fileread at hok
    by_cases hreadable : (m.file vma.file).readable = true
    · have hfill : m.fillBytes vma = (readi (m.data (m.file vma.file).ip) (m.file vma.file).off
          (u32 (readSize vma))).getD [] := if_neg (by tauto)
      rw [if_neg (not_not.mpr hreadable), if_neg (Option.some_ne_none _ ∘ Eq.symm)] at hok
      rw [hfill]
      cases hread : readi (m.data (m.file vma.file).ip) (m.file vma.file).off
          (u32 (readSize vma)) with
      | none =>
        rw [hread] at hok
        cases hok
        exact Filled.refl m e.frame
      | some bs =>
        rw [hread] at hok
        simp only at hok
        rcases m.store_cases (pageOf va * pgsize) bs with ⟨-, bytes, hstore⟩ | ⟨-, herror⟩
        · rw [hstore] at hok
          cases hok
          refine ⟨rfl, rfl, rfl, rfl, rfl, fun g => seek_file _ _ _ g, ?_, ?_⟩
          all_goals
            intro hlength
            have hstore' : m.store (pageOf va * pgsize + 0) bs =
                .ok { m with bytes := bytes } := by
              rw [Int.add_zero]
              exact hstore
            obtain ⟨hother, hthis⟩ := store_page hpte (Int.le_refl 0)
              (by simp only [Option.getD_some] at hlength; unfold pgsize; omega) hstore'
          · exact hother
          · intro k
            have hk := hthis k
            rw [Int.zero_add, Int.sub_zero] at hk
            exact hk
        · rw [herror] at hok
          cases hok
    · rw [if_pos hreadable] at hok
      cases hok
      rw [show m.fillBytes vma = [] from if_pos (.inr hreadable)]
      exact Filled.refl m e.frame

/-! ## One access -/

/-- What a page fault that the kernel comes back from has done. -/
inductive FaultStep (m m' : Machine) (va : Int) : Prop
  | refused
      (handler : m.maps.pgftHandler va (m.dir.table (pdx va)).isSome = (.killed, m.maps))
      (eq : m' = { m with killed := true })
  | killed (vma : Vma) (t : Table) (free : List Nat) (bytes : FrameBytes)
      (handler : m.maps.pgftHandler va (m.dir.table (pdx va)).isSome = (.doMap vma, t))
      (few : ¬ m.Enough va) (suffix : free <:+ m.free)
      (same : ∀ f, f ∉ m.free → bytes f = m.bytes f)
      (eq : m' = { m with maps := t, free := free, bytes := bytes, killed := true })
  | mapped (vma : Vma) (t : Table) (mem : Nat) (rest free : List Nat) (dir : PageDir)
      (handler : m.maps.pgftHandler va (m.dir.table (pdx va)).isSome = (.doMap vma, t))
      (taken : m.free = mem :: rest) (suffix : free <:+ rest)
      (pte : dir.pte = Function.update m.dir.pte (pageOf va) (some ⟨mem, mapPerm vma⟩))
      (filled : Filled { m with maps := t, free := free, bytes := m.bytes.fill mem 0, dir := dir }
        m' mem (m.fillBytes vma))

theorem killed_same {t t' : Table} {present : Bool} (h : t.pgftHandler va present = (.killed, t')) :
    t' = t := by
  unfold Table.pgftHandler at h
  split at h
  · cases h
    rfl
  · split at h
    · simp only at h
      split at h
      · cases h
        rfl
      · cases h
    · split at h
      · cases h
      · cases h
        rfl

theorem doMap_mem {t t' : Table} {present : Bool} {vma : Vma}
    (h : t.pgftHandler va present = (.doMap vma, t')) : mmapBase ≤ va ∧ va < kernBase := by
  unfold Table.pgftHandler at h
  split at h
  · cases h
  · omega

theorem faultStep (habsent : m.dir.pte (pageOf va) = none) (hok : m.pgftHandler none va = .ok m') :
    FaultStep m m' va := by
  have hm : mmapBase = 0x60000000 := rfl
  have hk : kernBase = 0x80000000 := rfl
  unfold pgftHandler at hok
  rcases hhandler : m.maps.pgftHandler va (m.dir.table (pdx va)).isSome with ⟨fault, t⟩
  rw [hhandler] at hok
  cases fault with
  | killed =>
    cases killed_same hhandler
    cases hok
    exact .refused hhandler rfl
  | doMap vma =>
    have hmem := doMap_mem hhandler
    simp only at hok
    cases doMap_cases (m := { m with maps := t }) none vma (by omega) (by omega) habsent with
    | killed free bytes few suffix same eq =>
      rw [eq] at hok
      cases hok
      exact .killed vma t free bytes hhandler few suffix same rfl
    | mapped mem rest free dir enough taken suffix pte eq =>
      rw [eq] at hok
      refine .mapped vma t mem rest free dir hhandler taken suffix pte ?_
      have hpte : dir.pte (pageOf va) = some ⟨mem, mapPerm vma⟩ := by
        rw [pte, Function.update_self]
      exact fillPage_filled (m := { m with
        maps := t, free := free, bytes := m.bytes.fill mem 0, dir := dir }) hpte hok

/-- Frames are kept apart. -/
theorem FramesApart.fault (h : m.FramesApart) (hstep : FaultStep m m' va) : m'.FramesApart := by
  cases hstep with
  | refused handler eq =>
    rw [eq]
    exact ⟨h.nodup, h.used, h.apart⟩
  | killed vma t free bytes handler few suffix same eq =>
    rw [eq]
    exact ⟨h.nodup.sublist suffix.sublist, fun p e hp hmem => h.used p e hp (suffix.subset hmem),
      h.apart⟩
  | mapped vma t mem rest free dir handler taken suffix pte filled =>
    have hnodup := h.nodup
    rw [taken, List.nodup_cons] at hnodup
    have hpte (p : Int) : m'.dir.pte p =
        if p = pageOf va then some ⟨mem, mapPerm vma⟩ else m.dir.pte p := by
      rw [filled.dir]
      simp only [pte]
      exact Function.update_apply _ _ _ _
    -- a frame that was in use is not the one taken
    have hne {p : Int} {e : Pte} (hp : m.dir.pte p = some e) : e.frame ≠ mem := by
      intro heq
      have := h.used p e hp
      rw [taken, heq] at this
      exact this List.mem_cons_self
    refine ⟨?_, ?_, ?_⟩
    · rw [filled.free]
      exact hnodup.2.sublist suffix.sublist
    · intro p e hp
      rw [filled.free]
      rw [hpte] at hp
      split at hp
      · cases hp
        exact fun hmem => hnodup.1 (suffix.subset hmem)
      · intro hmem
        refine h.used p e hp ?_
        rw [taken]
        exact List.mem_cons_of_mem _ (suffix.subset hmem)
    · intro p q e e' hp hq hframe
      rw [hpte] at hp hq
      split at hp
      · split at hq
        · omega
        · cases hp
          exact absurd hframe.symm (hne hq)
      · split at hq
        · cases hq
          exact absurd hframe (hne hp)
        · exact h.apart p q e e' hp hq hframe

/-- A page that is there keeps its bytes. -/
theorem ShowsPage.fault {p : Int} {bs : List UInt8} (hshows : m.ShowsPage p bs)
    (h : m.FramesApart) (hstep : FaultStep m m' va) (habsent : m.dir.pte (pageOf va) = none)
    (hfill : ∀ vma t, m.maps.pgftHandler va (m.dir.table (pdx va)).isSome = (.doMap vma, t) →
      (m.fillBytes vma).length ≤ 4096) : m'.ShowsPage p bs := by
  obtain ⟨e, hpte, hbytes⟩ := hshows
  have hused := h.used p e hpte
  cases hstep with
  | refused handler eq =>
    rw [eq]
    exact ⟨e, hpte, hbytes⟩
  | killed vma t free bytes handler few suffix same eq =>
    rw [eq]
    refine ⟨e, hpte, ?_⟩
    simp only [same e.frame hused]
    exact hbytes
  | mapped vma t mem rest free dir handler taken suffix pte filled =>
    have hne : p ≠ pageOf va := by
      rintro rfl
      rw [habsent] at hpte
      cases hpte
    have hframe : e.frame ≠ mem := by
      intro heq
      rw [taken, heq] at hused
      exact hused List.mem_cons_self
    refine ⟨e, ?_, ?_⟩
    · rw [filled.dir]
      simp only [pte]
      rw [Function.update_of_ne hne]
      exact hpte
    · rw [filled.others (hfill vma t handler) e.frame hframe]
      simp only [FrameBytes.fill]
      rw [Function.update_of_ne hframe]
      exact hbytes

/-- The page of the fault shows what was read into it. -/
theorem FaultStep.shows {vma : Vma} {t : Table} (hstep : FaultStep m m' va)
    (hhandler : m.maps.pgftHandler va (m.dir.table (pdx va)).isSome = (.doMap vma, t))
    (henough : m.Enough va) (hfill : (m.fillBytes vma).length ≤ 4096) :
    m'.ShowsPage (pageOf va) (m.fillBytes vma) := by
  cases hstep with
  | refused handler eq => cases hhandler.symm.trans handler
  | killed vma' t' free bytes handler few suffix same eq => exact absurd henough few
  | mapped vma' t' mem rest free dir handler taken suffix pte filled =>
    cases hhandler.symm.trans handler
    refine ⟨⟨mem, mapPerm vma⟩, ?_, ?_⟩
    · rw [filled.dir]
      simp only [pte]
      exact Function.update_self _ _ _
    · intro j h0 _
      rw [filled.bytes hfill]
      simp only [FrameBytes.fill, Function.update_self]
      split
      · rfl
      · rw [List.getD_eq_getElem?_getD, List.getElem?_eq_none (by omega), Option.getD_none]

/-- What `readi` delivers is a part of the data from the offset on. -/
theorem readi_isPrefix {data bs : List UInt8} {off n : Int} (h : readi data off n = some bs) :
    bs <+: data.drop off.toNat := by
  unfold readi at h
  split at h
  · cases h
  · cases h
    exact List.take_prefix _ _

/-- The bytes that are asked for, of an entry with this `stored_size`. -/
theorem readSize_eq {vma : Vma} (hstored : vma.storedSize = 0) (h0 : 0 ≤ vma.len)
    (hlt : vma.len < 2 ^ 31) : readSize vma = min pgsize (vma.len - pgsize) := by
  have hpage : i32 (vma.storedSize + pgsize) = pgsize := by
    rw [hstored]
    decide
  have hleft : i32 (vma.len - pgsize) = vma.len - pgsize :=
    i32_of_mem (by unfold pgsize; omega) (by unfold pgsize; omega)
  unfold readSize
  dsimp only
  rw [hpage, hleft]
  split
  · rw [min_eq_right (by omega)]
  · rw [min_eq_left (by omega)]

/-- A read of at most as many bytes as there are. -/
theorem readi_front {data : List UInt8} {off n : Int} (h0 : 0 ≤ off) (hoff : off ≤ data.length)
    (hn : 0 ≤ n) (hlt : off + n < 2 ^ 32) :
    readi data off n = some ((data.drop off.toNat).take n.toNat) := by
  have hsum : u32 (off + n) = off + n := u32_of_mem (by omega) hlt
  unfold readi
  rw [hsum, if_neg (by omega)]
  dsimp only
  split
  · have hlength : (data.drop off.toNat).length ≤ n.toNat := by
      rw [List.length_drop]
      omega
    have hlength' : (data.drop off.toNat).length ≤ ((data.length : Int) - off).toNat := by
      rw [List.length_drop]
      omega
    rw [List.take_of_length_le hlength, List.take_of_length_le hlength']
  · rfl

/-- A read behind the end delivers nothing. -/
theorem readi_behind {data : List UInt8} {off n : Int} (h : (data.length : Int) ≤ off) :
    (readi data off n).getD [] = [] := by
  cases hread : readi data off n with
  | none => rfl
  | some bs =>
    have hnil : data.drop off.toNat = [] := List.drop_eq_nil_of_le (by omega)
    have hprefix := readi_isPrefix hread
    rw [hnil] at hprefix
    exact List.prefix_nil.mp hprefix

theorem ReadsRight.fillBytes_eq {vma : Vma} {k : Nat} (h : m.ReadsRight vma k) :
    m.fillBytes vma = pageData (m.fileData vma) vma.len k := by
  obtain ⟨⟨hstored, hlen0, hlen⟩, ⟨hsize, hoff0⟩, hpart, hrest⟩ := h
  have hask := readSize_eq hstored hlen0 hlen
  unfold fillBytes
  change (if _ then _ else (readi (m.fileData vma) _ _).getD []) = _
  generalize m.fileData vma = data at hsize hpart hrest ⊢
  unfold share pgsize at hpart hrest
  unfold maxFileSize at hsize
  unfold pgsize at hask
  by_cases hshare : 0 < min 4096 (min (vma.len - 4096 * k) ((data.length : Int) - 4096 * k))
  · obtain ⟨hanon, -, hreadable, hoff, hlong, hshort⟩ := hpart hshare
    rw [if_neg (by rw [hreadable]; rintro (hflag | hno); exacts [hanon hflag, hno rfl]), hoff, hask]
    have hfrom : (4096 * (k : Int)).toNat = 4096 * k := by omega
    unfold pageData pgsize
    by_cases hle : 4096 ≤ vma.len
    · have hsame := hlong hle
      have hu : u32 (min 4096 (vma.len - 4096)) = min 4096 (vma.len - 4096) :=
        u32_of_mem (by omega) (by omega)
      rw [hu, readi_front (by omega) (by omega) (by omega) (by omega), Option.getD_some, hfrom]
      -- both are cut off where the file ends
      have hleft := List.take_eq_take_min (l := data.drop (4096 * k))
        (i := (min 4096 (vma.len - 4096)).toNat)
      have hright := List.take_eq_take_min (l := data.drop (4096 * k))
        (i := (min 4096 (vma.len - 4096 * k)).toNat)
      rw [hleft, hright]
      congr 1
      rw [List.length_drop]
      omega
    · have hfits := hshort (by omega)
      have hk : k = 0 := by omega
      subst hk
      have hasked : min 4096 (vma.len - 4096) = vma.len - 4096 := by omega
      have hu : u32 (vma.len - 4096) = 2 ^ 32 + (vma.len - 4096) := by
        unfold u32
        omega
      have hsum : u32 (4096 * ((0 : Nat) : Int) + (2 ^ 32 + (vma.len - 4096))) =
          2 ^ 32 + (vma.len - 4096) := by
        unfold u32
        omega
      unfold readi
      rw [hasked, hu, hsum, if_neg (by omega)]
      dsimp only
      rw [if_pos (by omega), Option.getD_some, hfrom, List.take_of_length_le, List.take_of_length_le]
      · rw [List.length_drop]
        omega
      · rw [List.length_drop]
        omega
  · have hnothing : pageData data vma.len k = [] := by
      unfold pageData pgsize
      refine List.eq_nil_of_length_eq_zero ?_
      rw [List.length_take, List.length_drop]
      omega
    rw [hnothing]
    by_cases hnone : has vma.flags mapAnonymous = true ∨ ¬ (m.file vma.file).readable = true
    · exact if_pos hnone
    · rw [if_neg hnone]
      rw [not_or, not_not] at hnone
      rcases hrest (by omega) with hanon | hno | hbehind | hpage | ⟨hshort, hwraps⟩
      · exact absurd hanon hnone.1
      · rw [hnone.2] at hno
        cases hno
      · exact readi_behind hbehind
      · rw [hask, hpage]
        by_cases hbehind : (data.length : Int) ≤ (m.file vma.file).off
        · exact readi_behind hbehind
        · rw [show u32 (min 4096 (4096 - 4096)) = 0 by decide,
            readi_front hoff0 (by omega) (by decide) (by omega)]
          rfl
      · by_cases hbehind : (data.length : Int) ≤ (m.file vma.file).off
        · exact readi_behind hbehind
        · have hasked : min 4096 (vma.len - 4096) = vma.len - 4096 := by omega
          have hwrapped : u32 ((m.file vma.file).off + u32 (vma.len - 4096)) <
              (m.file vma.file).off := by
            unfold u32
            omega
          unfold readi
          rw [hask, hasked, if_pos (.inr hwrapped)]
          rfl

theorem FillsOnePage.length_le {vma : Vma} (h : m.FillsOnePage vma) :
    (m.fillBytes vma).length ≤ 4096 := by
  have hpg : pgsize = 4096 := rfl
  unfold fillBytes
  split
  · exact Nat.zero_le _
  rename_i hsome
  rw [not_or, not_not] at hsome
  change ((readi (m.fileData vma) _ _).getD []).length ≤ 4096
  unfold FillsOnePage at h
  generalize m.fileData vma = data at h ⊢
  cases hread : readi data (m.file vma.file).off (u32 (readSize vma)) with
  | none => exact Nat.zero_le _
  | some bs =>
    have hprefix := (readi_isPrefix hread).length_le
    rw [List.length_drop] at hprefix
    rw [Option.getD_some]
    rcases h with hanon | hno | hbehind | ⟨⟨hoff0, hofflt⟩, hstored, hle, hlt⟩
    · exact absurd hanon hsome.1
    · rw [hsome.2] at hno
      cases hno
    · omega
    · have hu : u32 (readSize vma) = min pgsize (vma.len - pgsize) := by
        rw [readSize_eq hstored (by omega) hlt]
        exact u32_of_mem (by omega) (by omega)
      rw [hu] at hread
      unfold readi at hread
      split at hread
      · cases hread
      · rename_i hfits
        rw [not_or] at hfits
        obtain rfl := Option.some.inj hread
        refine (List.length_take_le _ _).trans ?_
        split
        · rename_i hend
          unfold u32 at hend hfits
          omega
        · omega

theorem length_pageData_le (data : List UInt8) (len : Int) (k : Nat) :
    (pageData data len k).length ≤ 4096 := by
  unfold pageData pgsize
  rw [List.length_take]
  omega

/-! ## Runs -/

/-- What does not change in a run. -/
structure Keeps (m₀ m : Machine) (i : Int) : Prop where
  frames : m.FramesApart
  vma : m.maps.vmas i = m₀.maps.vmas i
  total : m.maps.totalVmas = m₀.maps.totalVmas
  data : m.data = m₀.data
  file : ∀ g, (m.file g).readable = (m₀.file g).readable ∧ (m.file g).ip = (m₀.file g).ip

theorem Keeps.fileData (h : Keeps m₀ m i) (vma : Vma) : m.fileData vma = m₀.fileData vma := by
  unfold Machine.fileData
  rw [h.data, (h.file vma.file).2]

theorem Keeps.inside_iff (h : Keeps m₀ m i) : m.maps.Inside va i ↔ m₀.maps.Inside va i := by
  have hspan : m.maps.spans i = m₀.maps.spans i := by
    unfold Table.spans
    rw [h.vma]
  constructor
  · rintro ⟨⟨h0, hlt⟩, hlo, hhi⟩
    exact ⟨⟨h0, h.total ▸ hlt⟩, hspan ▸ hlo, hspan ▸ hhi⟩
  · rintro ⟨⟨h0, hlt⟩, hlo, hhi⟩
    exact ⟨⟨h0, h.total ▸ hlt⟩, hspan ▸ hlo, hspan ▸ hhi⟩

/-- Where the handler takes a fault that leaves the pages right. -/
theorem KeepsRight.handler {vma : Vma} {t : Table} (h : m.KeepsRight i (.fault va))
    (hhandler : m.maps.pgftHandler va (m.dir.table (pdx va)).isSome = (.doMap vma, t)) :
    (m.fillBytes vma).length ≤ 4096 ∧ t.vmas i = m.maps.vmas i := by
  by_cases hinside : m.maps.Inside va i
  · obtain ⟨hbase, hkern, hcover, hadmitted, -, hright⟩ := h.1 hinside
    cases (hadmitted.handler hbase hkern hcover).symm.trans hhandler
    rw [hright.fillBytes_eq]
    exact ⟨length_pageData_le _ _ _, rfl⟩
  · obtain ⟨hcovers, hgrows⟩ := h.2 hinside
    unfold Table.pgftHandler at hhandler
    split at hhandler
    · cases hhandler
    · cases hcover : m.maps.covering va with
      | some j =>
        simp only [hcover] at hhandler
        split at hhandler
        · cases hhandler
        · cases hhandler
          exact ⟨(hcovers j hcover).length_le, rfl⟩
      | none =>
        simp only [hcover] at hhandler
        split at hhandler
        · rename_i hgrowable
          cases hhandler
          obtain ⟨hne, hone⟩ := hgrows hcover hgrowable
          exact ⟨hone.length_le, Function.update_of_ne hne _ _⟩
        · cases hhandler

theorem Keeps.fault (hkeeps : Keeps m₀ m i) (hright : m.KeepsRight i (.fault va))
    (hstep : FaultStep m m' va) : Keeps m₀ m' i := by
  have hframes := hkeeps.frames.fault hstep
  have htotal := (Table.pgftHandler_files m.maps va (m.dir.table (pdx va)).isSome).1
  cases hstep with
  | refused handler eq =>
    rw [eq] at hframes ⊢
    exact ⟨hframes, hkeeps.vma, hkeeps.total, hkeeps.data, hkeeps.file⟩
  | killed vma t free bytes handler few suffix same eq =>
    rw [handler] at htotal
    rw [eq] at hframes ⊢
    exact ⟨hframes, (hright.handler handler).2.trans hkeeps.vma, htotal.trans hkeeps.total,
      hkeeps.data, hkeeps.file⟩
  | mapped vma t mem rest free dir handler taken suffix pte filled =>
    rw [handler] at htotal
    refine ⟨hframes, ?_, ?_, filled.data.trans hkeeps.data, ?_⟩
    · rw [filled.maps]
      exact (hright.handler handler).2.trans hkeeps.vma
    · rw [filled.maps]
      exact htotal.trans hkeeps.total
    · intro g
      obtain ⟨hreadable, hip⟩ := filled.file g
      exact ⟨hreadable.trans (hkeeps.file g).1, hip.trans (hkeeps.file g).2⟩

theorem Keeps.read (hkeeps : Keeps m₀ m i) (f : UInt32) (n : Int) :
    Keeps m₀ (m.sysRead f n) i := by
  unfold sysRead
  split
  · exact hkeeps
  · split
    · exact hkeeps
    · refine ⟨⟨hkeeps.frames.nodup, hkeeps.frames.used, hkeeps.frames.apart⟩, hkeeps.vma,
        hkeeps.total, hkeeps.data, ?_⟩
      intro g
      obtain ⟨hreadable, hip⟩ := seek_file m f ((m.file f).off + _) g
      exact ⟨hreadable.trans (hkeeps.file g).1, hip.trans (hkeeps.file g).2⟩

theorem ShowsPage.read {p : Int} {bs : List UInt8} (h : m.ShowsPage p bs) (f : UInt32) (n : Int) :
    (m.sysRead f n).ShowsPage p bs := by
  unfold sysRead
  split
  · exact h
  · split
    · exact h
    · exact h

/-- A fault that the kernel comes back from is taken at a page that is not present. -/
theorem access_fault (h : m.access (.fault va) = some m') :
    m.dir.pte (pageOf va) = none ∧ FaultStep m m' va := by
  simp only [access] at h
  by_cases hnot : m.killed = true ∨ (m.dir.pte (pageOf va)).isSome = true
  · rw [if_pos hnot] at h
    cases h
  · rw [if_neg hnot] at h
    rw [not_or] at hnot
    have habsent : m.dir.pte (pageOf va) = none := by simpa using hnot.2
    refine ⟨habsent, faultStep habsent ?_⟩
    cases hok : m.pgftHandler none va with
    | error e =>
      rw [hok] at h
      cases h
    | ok m₁ =>
      rw [hok] at h
      cases h
      rfl

/-- The pages of the mapping that were touched show the file, after every run that leaves them
right. -/
theorem run_shows {es : List Access} (hframes : m₀.FramesApart)
    (run : Run (guarded (fun m e => m.KeepsRight i e) (stepOf access)) m₀ es m) :
    Keeps m₀ m i ∧ ∀ va, .fault va ∈ es → m₀.maps.Inside va i →
      m.ShowsPage (pageOf va) (pageData (m₀.fileData (m₀.maps.vmas i)) (m₀.maps.vmas i).len
        (pageIndex (m₀.maps.vmas i) va)) := by
  induction run with
  | nil =>
    refine ⟨⟨hframes, rfl, rfl, rfl, fun _ => ⟨rfl, rfl⟩⟩, ?_⟩
    intro va hva
    exact absurd hva List.not_mem_nil
  | snoc _ hstep ih =>
    rename_i es u v e _
    obtain ⟨hkeeps, hshows⟩ := ih
    obtain ⟨hright, hnext⟩ := hstep
    cases e with
    | read f n =>
      simp only [stepOf, access] at hnext
      split at hnext
      · cases hnext
      · cases hnext
        refine ⟨hkeeps.read f n, ?_⟩
        intro va hva hinside
        rw [List.mem_append, List.mem_singleton] at hva
        rcases hva with hva | hva
        · exact (hshows va hva hinside).read f n
        · cases hva
    | fault a =>
      obtain ⟨habsent, hfault⟩ := access_fault hnext
      refine ⟨hkeeps.fault hright hfault, ?_⟩
      intro va hva hinside
      rw [List.mem_append, List.mem_singleton] at hva
      rcases hva with hva | hva
      · exact (hshows va hva hinside).fault hkeeps.frames hfault habsent
          fun vma t hhandler => (hright.handler hhandler).1
      · cases hva
        obtain ⟨hbase, hkern, hcover, hadmitted, henough, hreads⟩ :=
          hright.1 (hkeeps.inside_iff.mpr hinside)
        have hhandler := hadmitted.handler hbase hkern hcover
        have hpage := hfault.shows hhandler henough (hright.handler hhandler).1
        rw [hreads.fillBytes_eq, hkeeps.fileData, hkeeps.vma] at hpage
        exact hpage

/-- Two memories show the same bytes in the same page. -/
theorem ShowsPage.byteAt_eq {p : Int} {bs : List UInt8} (h : m.ShowsPage p bs)
    (h' : m'.ShowsPage p bs) {a : Int} (ha : pageOf a = p) : m.byteAt a = m'.byteAt a := by
  obtain ⟨e, hpte, hbytes⟩ := h
  obtain ⟨e', hpte', hbytes'⟩ := h'
  have h0 : 0 ≤ pageOffset a := by
    unfold pageOffset pgsize
    omega
  have hlt : pageOffset a < pgsize := by
    unfold pageOffset pgsize
    omega
  unfold byteAt
  rw [ha, hpte, hpte', Option.map_some, Option.map_some, hbytes _ h0 hlt, hbytes' _ h0 hlt]

/-- After every run that leaves the pages of a mapping right, each page that was touched shows the
file, and two such runs leave the same bytes in the pages that both have touched. -/
theorem pages_show_file {es : List Access} (hframes : m₀.FramesApart)
    (run : Run (guarded (fun m e => m.KeepsRight i e) (stepOf access)) m₀ es m) :
    (∀ va, .fault va ∈ es → m₀.maps.Inside va i →
      m.ShowsPage (pageOf va) (pageData (m₀.fileData (m₀.maps.vmas i)) (m₀.maps.vmas i).len
        (pageIndex (m₀.maps.vmas i) va))) ∧
    ∀ es' m', Run (guarded (fun m e => m.KeepsRight i e) (stepOf access)) m₀ es' m' →
      ∀ va va', .fault va ∈ es → .fault va' ∈ es' → m₀.maps.Inside va i → m₀.maps.Inside va' i →
        pageOf va' = pageOf va → ∀ a, pageOf a = pageOf va → m.byteAt a = m'.byteAt a := by
  have hshows := (run_shows hframes run).2
  refine ⟨hshows, ?_⟩
  intro es' m' run' va va' hva hva' hinside hinside' hsame a ha
  have hshows' := (run_shows hframes run').2 va' hva' hinside'
  have hindex : pageIndex (m₀.maps.vmas i) va' = pageIndex (m₀.maps.vmas i) va := by
    unfold pageIndex
    rw [hsame]
  rw [hsame, hindex] at hshows'
  exact (hshows va hva hinside).byteAt_eq hshows' ha

/-- A process that has mapped a file with the single byte 7, at `MMAPBASE`, shared and writable. -/
def sevenMapped (length : Int) : Machine where
  free := [1, 2, 3, 4]
  bytes := fun _ _ => 0
  dir := ⟨fun _ => none, fun _ => none, PageDir.none_backed⟩
  maps := Table.freshTable.next (.ummap 0 length protWrite mapShared 0 1)
  killed := false
  file := fun _ => ⟨true, true, 0, 0⟩
  data := fun _ => [7]

theorem sevenMapped_framesApart (length : Int) : (sevenMapped length).FramesApart := by
  refine ⟨show [1, 2, 3, 4].Nodup by decide, ?_, ?_⟩
  · intro p e hp
    cases hp
  · intro p q e e' hp
    cases hp

/-- The theorem at the first of two pages. -/
theorem pages_show_file_two_pages :
    ∃ m, Run (guarded (fun m e => m.KeepsRight 0 e) (stepOf access)) (sevenMapped 8192)
        [.fault mmapBase] m ∧ m.ShowsPage (pageOf mmapBase) [7] := by
  have htotal : (sevenMapped 8192).maps.totalVmas = 1 := by decide +kernel
  have hspan : (sevenMapped 8192).maps.spans 0 = ⟨mmapBase, 8192⟩ := by decide +kernel
  have hinside : (sevenMapped 8192).maps.Inside mmapBase 0 := by
    refine ⟨⟨Int.le_refl 0, by rw [htotal]; decide⟩, by rw [hspan], ?_⟩
    rw [hspan]
    decide
  have hright : (sevenMapped 8192).KeepsRight 0 (.fault mmapBase) := by
    refine ⟨fun _ => ⟨by decide, by decide, by decide +kernel, .inl rfl, ?_, ?_⟩,
      fun hout => absurd hinside hout⟩
    · exact ⟨List.cons_ne_nil _ _, fun _ => by decide⟩
    · exact ⟨by decide +kernel, by decide +kernel, fun _ => by decide +kernel,
        fun hnone => absurd hnone (by decide +kernel)⟩
  have hdefined : (((sevenMapped 8192).access (.fault mmapBase)).map killed).isSome = true := by
    decide +kernel
  rw [Option.isSome_map] at hdefined
  obtain ⟨m, hm⟩ := Option.isSome_iff_exists.mp hdefined
  have hrun : Run (guarded (fun m e => m.KeepsRight 0 e) (stepOf access)) (sevenMapped 8192)
      [.fault mmapBase] m := Run.nil.snoc ⟨hright, hm⟩
  refine ⟨m, hrun, ?_⟩
  have hshows := (pages_show_file (sevenMapped_framesApart 8192) hrun).1 mmapBase
    (List.mem_singleton.mpr rfl) hinside
  have hdata : pageData ((sevenMapped 8192).fileData ((sevenMapped 8192).maps.vmas 0))
      ((sevenMapped 8192).maps.vmas 0).len
      (pageIndex ((sevenMapped 8192).maps.vmas 0) mmapBase) = [7] := by decide +kernel
  rwa [hdata] at hshows

/-- A mapping of one page shows nothing of its file. -/
theorem single_page_shows_nothing :
    ¬ ∀ (m₀ m : Machine) (i : Int) (es : List Access), m₀.FramesApart → m₀.maps.Ordered →
      m₀.maps.Live i → ¬ has (m₀.maps.vmas i).flags mapAnonymous → (m₀.maps.vmas i).offset = 0 →
      (m₀.file (m₀.maps.vmas i).file).readable = true → Run (stepOf access) m₀ es m →
      ∀ va, .fault va ∈ es → m₀.maps.Inside va i →
        m.ShowsPage (pageOf va) (pageData (m₀.fileData (m₀.maps.vmas i)) (m₀.maps.vmas i).len
          (pageIndex (m₀.maps.vmas i) va)) := by
  intro hall
  have htotal : (sevenMapped 4096).maps.totalVmas = 1 := by decide +kernel
  have hspan : (sevenMapped 4096).maps.spans 0 = ⟨mmapBase, 4096⟩ := by decide +kernel
  have hlive : (sevenMapped 4096).maps.Live 0 := ⟨Int.le_refl 0, by rw [htotal]; decide⟩
  have hobs : ((sevenMapped 4096).access (.fault mmapBase)).map
      (fun m => m.byteAt mmapBase) = some (some 0) := by decide +kernel
  obtain ⟨m, hm, hbyte⟩ := Option.map_eq_some_iff.mp hobs
  obtain ⟨e, hpte, hbytes⟩ := hall (sevenMapped 4096) m 0 [.fault mmapBase]
    (sevenMapped_framesApart 4096)
    (ordered_of_one htotal hspan (by decide) (by decide) (by decide) (by decide)) hlive
    (by decide +kernel) (by decide +kernel) (by decide +kernel) (Run.nil.snoc hm) mmapBase
    (List.mem_singleton.mpr rfl) ⟨hlive, by rw [hspan], by rw [hspan]; decide⟩
  have hseven := hbytes 0 (Int.le_refl 0) (by decide)
  have hdata : pageData ((sevenMapped 4096).fileData ((sevenMapped 4096).maps.vmas 0))
      ((sevenMapped 4096).maps.vmas 0).len
      (pageIndex ((sevenMapped 4096).maps.vmas 0) mmapBase) = [7] := by decide +kernel
  rw [hdata] at hseven
  unfold byteAt at hbyte
  rw [hpte, Option.map_some, show pageOffset mmapBase = 0 by decide, hseven] at hbyte
  revert hbyte
  decide

end Machine

end Cs537.P5
