import Cs537.P5.WriteBack

/-!
# When a write-back succeeds

`filewrite` holds the lock of the inode while it reads the memory of the mapping, and a page that is
not present is faulted in under that lock. The page fault may read other files, but not this one, so
it sees neither what was written before it nor where `filewrite` has got to. A write-back therefore
succeeds if and only if the file takes it and the memory can be read at once under the lock.
-/

namespace Cs537.P5

open Cs537.Lib

namespace Machine

variable {m m' m₁ : Machine} {f : UInt32} {locked : Option Nat}

/-- The machine with other data in the inode of a file and another offset in the file. -/
def rewrite (m : Machine) (f : UInt32) (bs : List UInt8) (off : Int) : Machine :=
  { m with
    data := Function.update m.data (m.file f).ip bs
    file := Function.update m.file f { m.file f with off := off } }

/-- The data of all inodes and a file are as before. -/
structure Kept (f : UInt32) (m m' : Machine) : Prop where
  file : m'.file f = m.file f
  data : m'.data = m.data

theorem Kept.trans (h : Kept f m m₁) (h' : Kept f m₁ m') : Kept f m m' :=
  ⟨h'.file.trans h.file, h'.data.trans h.data⟩

/-! ## Other data and another offset -/

theorem rewrite_file_self (m : Machine) (f : UInt32) (bs : List UInt8) (off : Int) :
    (m.rewrite f bs off).file f = { m.file f with off := off } := Function.update_self _ _ _

theorem rewrite_file_of_ne {g : UInt32} (m : Machine) (bs : List UInt8) (off : Int) (hg : g ≠ f) :
    (m.rewrite f bs off).file g = m.file g := Function.update_of_ne hg _ _

theorem rewrite_data_self (m : Machine) (f : UInt32) (bs : List UInt8) (off : Int) :
    (m.rewrite f bs off).data (m.file f).ip = bs := Function.update_self _ _ _

theorem rewrite_ip (m : Machine) (f g : UInt32) (bs : List UInt8) (off : Int) :
    ((m.rewrite f bs off).file g).ip = (m.file g).ip := by
  by_cases hg : g = f
  · rw [hg, rewrite_file_self]
  · rw [rewrite_file_of_ne m bs off hg]

theorem rewrite_readable (m : Machine) (f g : UInt32) (bs : List UInt8) (off : Int) :
    ((m.rewrite f bs off).file g).readable = (m.file g).readable := by
  by_cases hg : g = f
  · rw [hg, rewrite_file_self]
  · rw [rewrite_file_of_ne m bs off hg]

theorem rewrite_rewrite (m : Machine) (f : UInt32) (bs bs' : List UInt8) (off off' : Int) :
    (m.rewrite f bs off).rewrite f bs' off' = m.rewrite f bs' off' := by
  conv_lhs => rw [rewrite]
  rw [rewrite_file_self]
  simp only [rewrite, Function.update_idem]

theorem seek_eq (m : Machine) (f : UInt32) (off : Int) :
    m.seek f off = m.rewrite f (m.data (m.file f).ip) (u32 off) := by
  unfold rewrite seek
  rw [Function.update_eq_self]

/-! ## Reading under the lock -/

theorem store_rewrite (m : Machine) (bs : List UInt8) (off va : Int) (cs : List UInt8) :
    (m.rewrite f bs off).store va cs = (m.store va cs).map (rewrite · f bs off) := by
  induction cs generalizing m va with
  | nil => rfl
  | cons c cs ih =>
    rw [store, store]
    cases hpte : m.dir.pte (pageOf va) with
    | none =>
      have hpte' : (m.rewrite f bs off).dir.pte (pageOf va) = none := hpte
      rw [hpte']
      rfl
    | some e =>
      have hpte' : (m.rewrite f bs off).dir.pte (pageOf va) = some e := hpte
      rw [hpte']
      simp only
      by_cases hwrite : has e.perm pteW = true
      · rw [if_pos hwrite, if_pos hwrite]
        exact ih { m with bytes := m.bytes.put e.frame (pageOffset va) c } (va + 1)
      · rw [if_neg hwrite, if_neg hwrite]
        rfl

/-- Reading a file that is neither closed to reading nor locked. -/
theorem fileread_eq {g : UInt32} (hreadable : (m.file g).readable = true)
    (hlocked : locked ≠ some (m.file g).ip) (addr n : Int) :
    m.fileread locked g addr n =
      match readi (m.data (m.file g).ip) (m.file g).off (u32 n) with
      | none => .ok (-1, m)
      | some bs =>
        match m.store addr bs with
        | .error e => .error e
        | .ok m => .ok (bs.length, m.seek g ((m.file g).off + bs.length)) :=
  (if_neg (not_not.mpr hreadable)).trans (if_neg hlocked)

/-- Reading a file while another one is locked, or not at all. -/
theorem fileread_locked (hl : locked = some (m.file f).ip) (g : UInt32) (addr n : Int) :
    (∀ bs off, (m.rewrite f bs off).fileread locked g addr n =
        (m.fileread locked g addr n).map fun r => (r.1, r.2.rewrite f bs off)) ∧
      ∀ r, m.fileread locked g addr n = .ok r → Kept f m r.2 := by
  by_cases hreadable : (m.file g).readable = true
  · by_cases hlocked : locked = some (m.file g).ip
    · have hdeadlock (m' : Machine) (hreadable' : (m'.file g).readable = true)
          (hlocked' : locked = some (m'.file g).ip) :
          m'.fileread locked g addr n = .error .deadlock := by
        unfold fileread
        rw [if_neg (not_not.mpr hreadable'), if_pos hlocked']
      refine ⟨?_, ?_⟩
      · intro bs off
        rw [hdeadlock m hreadable hlocked, hdeadlock _ (by rw [rewrite_readable]; exact hreadable)
          (by rw [rewrite_ip]; exact hlocked)]
        rfl
      · intro r hr
        rw [hdeadlock m hreadable hlocked] at hr
        cases hr
    · have hne : (m.file g).ip ≠ (m.file f).ip := fun heq => hlocked (by rw [hl, heq])
      have hg : g ≠ f := fun heq => hne (by rw [heq])
      have heq (bs : List UInt8) (off : Int) :=
        fileread_eq (m := m.rewrite f bs off) (g := g) (by rw [rewrite_readable]; exact hreadable)
          (by rw [rewrite_ip]; exact hlocked) addr n
      have hdata (bs : List UInt8) (off : Int) :
          (m.rewrite f bs off).data (m.file g).ip = m.data (m.file g).ip :=
        Function.update_of_ne hne _ _
      simp only [heq, fileread_eq hreadable hlocked, rewrite_file_of_ne m _ _ hg, hdata, store_rewrite]
      cases hread : readi (m.data (m.file g).ip) (m.file g).off (u32 n) with
      | none =>
        refine ⟨fun _ _ => rfl, ?_⟩
        intro r hr
        cases hr
        exact ⟨rfl, rfl⟩
      | some cs =>
        rcases m.store_cases addr cs with ⟨-, bytes, hstore⟩ | ⟨-, herror⟩
        · simp only [hstore]
          refine ⟨?_, ?_⟩
          · intro bs off
            simp only [Except.map, seek, rewrite, Function.update_of_ne hg,
              Function.update_of_ne hg.symm, Function.update_comm hg]
          · intro r hr
            cases hr
            exact ⟨Function.update_of_ne hg.symm _ _, rfl⟩
        · simp only [herror]
          refine ⟨fun _ _ => rfl, ?_⟩
          intro r hr
          cases hr
  · have hrefused (m' : Machine) (hreadable' : ¬ (m'.file g).readable = true) :
        m'.fileread locked g addr n = .ok (-1, m') := if_pos hreadable'
    refine ⟨?_, ?_⟩
    · intro bs off
      rw [hrefused m hreadable, hrefused _ (by rw [rewrite_readable]; exact hreadable)]
      rfl
    · intro r hr
      rw [hrefused m hreadable] at hr
      cases hr
      exact ⟨rfl, rfl⟩

theorem fillPage_locked (hl : locked = some (m.file f).ip) (va : Int) (vma : Vma) :
    (∀ bs off, (m.rewrite f bs off).fillPage locked va vma =
        (m.fillPage locked va vma).map (rewrite · f bs off)) ∧
      ∀ m', m.fillPage locked va vma = .ok m' → Kept f m m' := by
  unfold fillPage
  by_cases hanon : has vma.flags mapAnonymous = true
  · rw [if_pos hanon]
    refine ⟨?_, ?_⟩
    · intro bs off
      rw [if_pos hanon]
      rfl
    · intro m' hm'
      cases hm'
      exact ⟨rfl, rfl⟩
  · obtain ⟨heq, hkept⟩ := fileread_locked hl vma.file (pageOf va * pgsize) (readSize vma)
    rw [if_neg hanon]
    simp only [heq, if_neg hanon]
    cases hread : m.fileread locked vma.file (pageOf va * pgsize) (readSize vma) with
    | error e =>
      refine ⟨fun _ _ => rfl, ?_⟩
      intro m' hm'
      cases hm'
    | ok r =>
      refine ⟨fun _ _ => rfl, ?_⟩
      intro m' hm'
      cases hm'
      exact hkept r hread

theorem doMap_locked (hl : locked = some (m.file f).ip) (va : Int) (vma : Vma) :
    (∀ bs off, (m.rewrite f bs off).doMap locked va vma =
        (m.doMap locked va vma).map (rewrite · f bs off)) ∧
      ∀ m', m.doMap locked va vma = .ok m' → Kept f m m' := by
  cases hfree : m.free with
  | nil =>
    have heq : ∀ bs off, (m.rewrite f bs off).free = [] := fun _ _ => hfree
    unfold doMap
    simp only [hfree, heq]
    refine ⟨fun _ _ => rfl, ?_⟩
    intro m' hm'
    cases hm'
    exact ⟨rfl, rfl⟩
  | cons mem free =>
    have heq : ∀ bs off, (m.rewrite f bs off).free = mem :: free := fun _ _ => hfree
    unfold doMap
    simp only [hfree, heq]
    have hdir : ∀ bs off, (m.rewrite f bs off).dir = m.dir := fun _ _ => rfl
    simp only [hdir]
    rcases m.dir.mappages free (pageOf va * pgsize) pgsize mem (mapPerm vma) with
      e | ⟨_ | _, dir, free'⟩
    · refine ⟨fun _ _ => rfl, ?_⟩
      intro m' hm'
      cases hm'
    · refine ⟨fun _ _ => rfl, ?_⟩
      intro m' hm'
      cases hm'
      exact ⟨rfl, rfl⟩
    · obtain ⟨heq', hkept⟩ := fillPage_locked
        (m := { m with free := free', bytes := m.bytes.fill mem 0, dir := dir }) hl va vma
      refine ⟨heq', ?_⟩
      intro m' hm'
      obtain ⟨hfile, hdata⟩ := hkept m' hm'
      exact ⟨hfile, hdata⟩

theorem pgftHandler_locked (hl : locked = some (m.file f).ip) (va : Int) :
    (∀ bs off, (m.rewrite f bs off).pgftHandler locked va =
        (m.pgftHandler locked va).map (rewrite · f bs off)) ∧
      ∀ m', m.pgftHandler locked va = .ok m' → Kept f m m' := by
  have hsame : ∀ bs off, (m.rewrite f bs off).maps = m.maps ∧ (m.rewrite f bs off).dir = m.dir :=
    fun _ _ => ⟨rfl, rfl⟩
  unfold pgftHandler
  simp only [hsame]
  rcases m.maps.pgftHandler va (m.dir.table (pdx va)).isSome with ⟨_ | vma, maps⟩
  · refine ⟨fun _ _ => rfl, ?_⟩
    intro m' hm'
    cases hm'
    exact ⟨rfl, rfl⟩
  · obtain ⟨heq, hkept⟩ := doMap_locked (m := { m with maps := maps }) hl va vma
    refine ⟨heq, ?_⟩
    intro m' hm'
    obtain ⟨hfile, hdata⟩ := hkept m' hm'
    exact ⟨hfile, hdata⟩

theorem load_locked (hl : locked = some (m.file f).ip) (va : Int) :
    (∀ bs off, (m.rewrite f bs off).load locked va =
        (m.load locked va).map fun r => (r.1, r.2.rewrite f bs off)) ∧
      ∀ r, m.load locked va = .ok r → Kept f m r.2 := by
  have hsame : ∀ bs off, (m.rewrite f bs off).dir = m.dir := fun _ _ => rfl
  unfold load
  simp only [hsame]
  cases m.dir.pte (pageOf va) with
  | some e =>
    refine ⟨fun _ _ => rfl, ?_⟩
    intro r hr
    cases hr
    exact ⟨rfl, rfl⟩
  | none =>
    obtain ⟨heq, hkept⟩ := pgftHandler_locked hl va
    simp only [heq]
    cases hfault : m.pgftHandler locked va with
    | error e =>
      refine ⟨fun _ _ => rfl, ?_⟩
      intro r hr
      cases hr
    | ok m₁ =>
      have hsame' : ∀ bs off, (m₁.rewrite f bs off).dir = m₁.dir := fun _ _ => rfl
      simp only [Except.map, hsame']
      cases m₁.dir.pte (pageOf va) with
      | none =>
        refine ⟨fun _ _ => rfl, ?_⟩
        intro r hr
        cases hr
      | some e =>
        refine ⟨fun _ _ => rfl, ?_⟩
        intro r hr
        cases hr
        exact hkept m₁ hfault

theorem loads_locked (hl : locked = some (m.file f).ip) (va : Int) (n : Nat) :
    (∀ bs off, (m.rewrite f bs off).loads locked va n =
        (m.loads locked va n).map fun r => (r.1, r.2.rewrite f bs off)) ∧
      ∀ r, m.loads locked va n = .ok r → Kept f m r.2 := by
  induction n generalizing m va with
  | zero =>
    refine ⟨fun _ _ => rfl, ?_⟩
    intro r hr
    cases hr
    exact ⟨rfl, rfl⟩
  | succ n ih =>
    obtain ⟨heq, hkept⟩ := load_locked hl (u32 va)
    simp only [loads, heq]
    cases hload : m.load locked (u32 va) with
    | error e =>
      refine ⟨fun _ _ => rfl, ?_⟩
      intro r hr
      cases hr
    | ok r =>
      obtain ⟨c, m₁⟩ := r
      have hfirst := hkept _ hload
      obtain ⟨heq', hkept'⟩ := ih (m := m₁) (by rw [hl, hfirst.file]) (va + 1)
      simp only [Except.map, heq']
      cases hloads : m₁.loads locked (va + 1) n with
      | error e =>
        refine ⟨fun _ _ => rfl, ?_⟩
        intro r hr
        cases hr
      | ok r =>
        refine ⟨fun _ _ => rfl, ?_⟩
        intro r' hr'
        cases hr'
        exact hfirst.trans (hkept' r hloads)

/-- Reading in two parts. -/
theorem loads_add (m : Machine) (locked : Option Nat) (va : Int) (n k : Nat) :
    m.loads locked va (n + k) =
      match m.loads locked va n with
      | .error e => .error e
      | .ok (bs, m₁) =>
        match m₁.loads locked (va + n) k with
        | .error e => .error e
        | .ok (cs, m₂) => .ok (bs ++ cs, m₂) := by
  induction n generalizing m va with
  | zero =>
    rw [Nat.zero_add, show va + ((0 : Nat) : Int) = va by omega]
    simp only [loads, List.nil_append]
    cases m.loads locked va k <;> rfl
  | succ n ih =>
    rw [Nat.add_right_comm, loads, loads]
    cases m.load locked (u32 va) with
    | error e => rfl
    | ok r =>
      obtain ⟨c, m₁⟩ := r
      simp only [ih]
      cases m₁.loads locked (va + 1) n with
      | error e => rfl
      | ok r =>
        obtain ⟨bs, m₂⟩ := r
        simp only
        rw [show va + 1 + (n : Int) = va + ((n + 1 : Nat) : Int) by omega]
        cases m₂.loads locked (va + ((n + 1 : Nat) : Int)) k <;> rfl

theorem length_loads {va : Int} {n : Nat} {bs : List UInt8}
    (hok : m.loads locked va n = .ok (bs, m')) : bs.length = n := by
  induction n generalizing m va bs with
  | zero =>
    cases hok
    rfl
  | succ n ih =>
    obtain ⟨c, m₁, cs, -, hloads, rfl⟩ := loads_succ_ok hok
    rw [List.length_cons, ih hloads]

/-! ## Writing what was read -/

section Writing

variable {addr : Int} {n : Nat}

/-- A round of the loop of `filewrite` that reads what it is to write. -/
theorem writeLoop_round {bs : List UInt8} (fuel : Nat) (hfits : m.Fits f (min n maxChunk))
    (hreads : m.loads (some (m.file f).ip) addr (min n maxChunk) = .ok (bs, m₁)) (hpos : 0 < n) :
    writeLoop f (fuel + 1) m addr n =
      writeLoop f fuel (m₁.rewrite f (splice (m.data (m.file f).ip) (m.file f).off.toNat bs)
        ((m.file f).off + (min n maxChunk : Nat))) (addr + (min n maxChunk : Nat))
        (n - min n maxChunk) := by
  obtain ⟨hfile, hdata⟩ := (loads_locked rfl addr (min n maxChunk)).2 _ hreads
  simp only at hfile hdata
  rw [writeLoop, if_neg (by omega)]
  simp only [hfits.writei, hreads]
  simp only [seek, rewrite, hfile, hdata, hfits.u32_end]

theorem writeLoop_halted {e : Halt} (fuel : Nat) (hfits : m.Fits f (min n maxChunk))
    (herror : m.loads (some (m.file f).ip) addr (min n maxChunk) = .error e) (hpos : 0 < n) :
    writeLoop f (fuel + 1) m addr n = .error e := by
  rw [writeLoop, if_neg (by omega)]
  simp only [hfits.writei, herror]

/-- What is written back is what the kernel reads under the lock, at once. -/
structure Flush (m : Machine) (f : UInt32) (addr : Int) (n : Nat) (bs : List UInt8)
    (m₁ : Machine) : Prop where
  fits : m.Fits f n
  reads : m.loads (some (m.file f).ip) addr n = .ok (bs, m₁)

/-- The machine after that. -/
def afterFlush (m : Machine) (f : UInt32) (n : Nat) (bs : List UInt8) (m₁ : Machine) : Machine :=
  m₁.rewrite f (splice (m.data (m.file f).ip) (m.file f).off.toNat bs) ((m.file f).off + n)

/-- A first part was written, and the rest is written to the machine it left. -/
theorem flush_rest_iff {n₁ : Nat} {bs : List UInt8} (hfirst : m.Flush f addr n₁ bs m₁)
    (hle : n₁ ≤ n) :
    (∃ cs m₂, (m.afterFlush f n₁ bs m₁).Flush f (addr + n₁) (n - n₁) cs m₂ ∧
        m' = (m.afterFlush f n₁ bs m₁).afterFlush f (n - n₁) cs m₂) ↔
      ∃ cs m₂, m.Flush f addr n cs m₂ ∧ m' = m.afterFlush f n cs m₂ := by
  obtain ⟨hfits, hreads⟩ := hfirst
  obtain ⟨hfile, hdata⟩ := (loads_locked rfl addr n₁).2 _ hreads
  simp only at hfile hdata
  have hoff := hfits.off_nonneg
  have hoffle := hfits.off_le
  have hend := hfits.end_le
  have hmax : maxFileSize = 71680 := rfl
  have hlength := length_loads hreads
  have hin : (m.file f).off.toNat ≤ (m.data (m.file f).ip).length := by omega
  have hlonger := length_splice bs hin
  have hplace : ((m.file f).off + n₁).toNat = (m.file f).off.toNat + bs.length := by omega
  have hip : ((m.afterFlush f n₁ bs m₁).file f).ip = (m.file f).ip := by
    rw [afterFlush, rewrite_ip, hfile]
  have hoff' : ((m.afterFlush f n₁ bs m₁).file f).off = (m.file f).off + n₁ := by
    rw [afterFlush, rewrite_file_self]
  have hdata' : (m.afterFlush f n₁ bs m₁).data (m.file f).ip =
      splice (m.data (m.file f).ip) (m.file f).off.toNat bs := by
    rw [afterFlush, ← hfile]
    exact rewrite_data_self _ _ _ _
  have hfits' : (m.afterFlush f n₁ bs m₁).Fits f (n - n₁) ↔ m.Fits f n := by
    constructor
    · rintro ⟨-, -, hend'⟩
      rw [hoff'] at hend'
      exact ⟨hoff, hoffle, by omega⟩
    · rintro ⟨-, -, hend'⟩
      refine ⟨?_, ?_, ?_⟩
      · rw [hoff']
        omega
      · rw [hoff', hip, hdata']
        omega
      · rw [hoff']
        omega
  -- the rest is read from the machine as if nothing had been written
  have hlocked : some (m.file f).ip = some (m₁.file f).ip := by rw [hfile]
  have hrest := (loads_locked hlocked (addr + n₁) (n - n₁)).1
    (splice (m.data (m.file f).ip) (m.file f).off.toNat bs) ((m.file f).off + n₁)
  have hall := loads_add m (some (m.file f).ip) addr n₁ (n - n₁)
  rw [hreads, Nat.add_sub_cancel' hle] at hall
  have hafter (cs : List UInt8) (m₂ : Machine) :
      (m.afterFlush f n₁ bs m₁).afterFlush f (n - n₁) cs
        (m₂.rewrite f (splice (m.data (m.file f).ip) (m.file f).off.toNat bs)
          ((m.file f).off + n₁)) = m.afterFlush f n (bs ++ cs) m₂ := by
    rw [afterFlush, hip, hoff', hdata', hplace, splice_splice _ _ hin, rewrite_rewrite, afterFlush,
      show (m.file f).off + (n₁ : Int) + ((n - n₁ : Nat) : Int) = (m.file f).off + n by omega]
  simp only at hall
  change (m.afterFlush f n₁ bs m₁).loads _ _ _ = _ at hrest
  cases hloads : m₁.loads (some (m.file f).ip) (addr + n₁) (n - n₁) with
  | error e =>
    rw [hloads] at hall hrest
    constructor
    · rintro ⟨cs, m₂, hflush, -⟩
      have hreads' := hflush.reads
      rw [hip, hrest] at hreads'
      cases hreads'
    · rintro ⟨cs, m₂, hflush, -⟩
      cases hall.symm.trans hflush.reads
  | ok r =>
    obtain ⟨cs, m₂⟩ := r
    rw [hloads] at hall hrest
    constructor
    · rintro ⟨cs', m₂', hflush, rfl⟩
      have hreads' := hflush.reads
      rw [hip, hrest] at hreads'
      cases hreads'
      exact ⟨bs ++ cs, m₂, ⟨hfits'.mp hflush.fits, hall⟩, hafter cs m₂⟩
    · rintro ⟨cs', m₂', hflush, rfl⟩
      cases hall.symm.trans hflush.reads
      refine ⟨cs, _, ⟨hfits'.mpr hflush.fits, ?_⟩, (hafter cs m₂).symm⟩
      rw [hip, hrest]
      rfl

/-- The loop of `filewrite` succeeds if and only if the file takes the bytes and they can be read. -/
theorem writeLoop_iff {fuel : Nat} (hfuel : n ≤ fuel) (hpos : 0 < n) (hn : n < 2 ^ 31)
    (hoff : 0 ≤ (m.file f).off) (hoff' : (m.file f).off < 2 ^ 32) :
    writeLoop f fuel m addr n = .ok (true, m') ↔
      ∃ bs m₁, m.Flush f addr n bs m₁ ∧ m' = m.afterFlush f n bs m₁ := by
  induction fuel generalizing m addr n with
  | zero => omega
  | succ fuel ih =>
    have hmax : maxFileSize = 71680 := rfl
    have hchunk : 0 < min n maxChunk ∧ min n maxChunk ≤ n := by
      unfold maxChunk
      omega
    by_cases hpart : m.Fits f (min n maxChunk)
    · have hend := hpart.end_le
      cases hreads : m.loads (some (m.file f).ip) addr (min n maxChunk) with
      | error e =>
        rw [writeLoop_halted fuel hpart hreads hpos]
        have hall := loads_add m (some (m.file f).ip) addr (min n maxChunk) (n - min n maxChunk)
        rw [hreads, Nat.add_sub_cancel' hchunk.2] at hall
        constructor
        · intro h
          cases h
        · rintro ⟨bs, m₁, hflush, -⟩
          cases hall.symm.trans hflush.reads
      | ok r =>
        obtain ⟨bs, m₁⟩ := r
        have hfirst : m.Flush f addr (min n maxChunk) bs m₁ := ⟨hpart, hreads⟩
        rw [writeLoop_round fuel hpart hreads hpos]
        change writeLoop f fuel (m.afterFlush f (min n maxChunk) bs m₁) _ _ = _ ↔ _
        by_cases hlast : min n maxChunk = n
        · have hnone (x : Machine) (va : Int) : writeLoop f fuel x va 0 = .ok (true, x) := by
            cases fuel <;> rfl
          rw [hlast] at hfirst ⊢
          rw [Nat.sub_self, hnone]
          constructor
          · intro h
            cases h
            exact ⟨bs, m₁, hfirst, rfl⟩
          · rintro ⟨bs', m₁', hflush, rfl⟩
            cases hfirst.reads.symm.trans hflush.reads
            rfl
        · rw [← flush_rest_iff hfirst hchunk.2]
          have hnewoff : ((m.afterFlush f (min n maxChunk) bs m₁).file f).off =
              (m.file f).off + (min n maxChunk : Nat) := by
            rw [afterFlush, rewrite_file_self]
          exact ih (by omega) (by omega) (by omega) (by rw [hnewoff]; omega) (by rw [hnewoff]; omega)
    · have hrefused := writei_refused addr hpart hoff hoff' (by unfold maxChunk at *; omega)
      rw [writeLoop, if_neg (by omega)]
      simp only [hrefused]
      constructor
      · intro h
        cases h
      · rintro ⟨bs, m₁, ⟨⟨h0, hle, hend⟩, -⟩, -⟩
        exact absurd ⟨h0, hle, by omega⟩ hpart

end Writing

/-! ## The write-back -/

/-- The write-back of a mapping succeeds: its file takes it, and its memory can be read while the
inode is locked, as the bytes `bs`. -/
structure Flushes (m : Machine) (v : Vma) (bs : List UInt8) (m₁ : Machine) : Prop where
  takes : m.Takes v
  reads : m.loads (some (m.file v.file).ip) v.addr v.len.toNat = .ok (bs, m₁)

theorem flush_seek_iff {v : Vma} {bs : List UInt8} :
    (∃ m₁, (m.seek v.file v.offset).Flush v.file v.addr v.len.toNat bs m₁ ∧
        m' = (m.seek v.file v.offset).afterFlush v.file v.len.toNat bs m₁) ↔
      (m.seek v.file v.offset).Fits v.file v.len.toNat ∧ ∃ m₁,
        m.loads (some (m.file v.file).ip) v.addr v.len.toNat = .ok (bs, m₁) ∧
          m' = m₁.rewrite v.file (splice (m.fileData v) (u32 v.offset).toNat bs)
            (u32 v.offset + v.len.toNat) := by
  have hip : ((m.seek v.file v.offset).file v.file).ip = (m.file v.file).ip := by rw [seek_off]
  have hoff : ((m.seek v.file v.offset).file v.file).off = u32 v.offset := by rw [seek_off]
  have hloads := (loads_locked (m := m) (f := v.file) rfl v.addr v.len.toNat).1
    (m.data (m.file v.file).ip) (u32 v.offset)
  rw [← seek_eq] at hloads
  have hafter (m₁ : Machine) (bs' : List UInt8) (off' : Int) :
      (m.seek v.file v.offset).afterFlush v.file v.len.toNat bs (m₁.rewrite v.file bs' off') =
        m₁.rewrite v.file (splice (m.fileData v) (u32 v.offset).toNat bs)
          (u32 v.offset + v.len.toNat) := by
    rw [afterFlush, hip, hoff, rewrite_rewrite]
    rfl
  constructor
  · rintro ⟨m₁, ⟨hfits, hreads⟩, rfl⟩
    rw [hip, hloads] at hreads
    cases hok : m.loads (some (m.file v.file).ip) v.addr v.len.toNat with
    | error e =>
      rw [hok] at hreads
      cases hreads
    | ok r =>
      rw [hok] at hreads
      cases hreads
      exact ⟨hfits, r.2, rfl, hafter _ _ _⟩
  · rintro ⟨hfits, m₁, hreads, rfl⟩
    refine ⟨m₁.rewrite v.file (m.data (m.file v.file).ip) (u32 v.offset), ⟨hfits, ?_⟩,
      (hafter m₁ _ _).symm⟩
    rw [hip, hloads, hreads]
    rfl

/-- A write-back of a mapping succeeds if and only if `Flushes` holds, and this is what it does. -/
theorem writeBack_iff {addr w : Int} {v : Vma} (hdirty : dirtyEntry m.maps addr = some v)
    (hpos : 0 < v.len) (hmax : v.len < 2 ^ 31) :
    m.writeBack addr = .ok (w, m') ∧ 0 ≤ w ↔
      ∃ bs m₁, m.Flushes v bs m₁ ∧ w = v.len ∧
        m' = m₁.rewrite v.file (splice (m.fileData v) (u32 v.offset).toNat bs)
          (u32 v.offset + v.len.toNat) := by
  have hoff : ((m.seek v.file v.offset).file v.file).off = u32 v.offset := by rw [seek_off]
  have hwritable : ((m.seek v.file v.offset).file v.file).writable = (m.file v.file).writable := by
    rw [seek_off]
  have hloop (m' : Machine) :
      writeLoop v.file v.len.toNat (m.seek v.file v.offset) v.addr v.len.toNat = .ok (true, m') ↔
        ∃ bs m₁, (m.seek v.file v.offset).Flush v.file v.addr v.len.toNat bs m₁ ∧
          m' = (m.seek v.file v.offset).afterFlush v.file v.len.toNat bs m₁ :=
    writeLoop_iff (Nat.le_refl v.len.toNat) (by omega) (by omega) (by rw [hoff]; unfold u32; omega)
      (by rw [hoff]; unfold u32; omega)
  have hwriteBack : m.writeBack addr = (m.seek v.file v.offset).filewrite v.file v.addr v.len := by
    unfold writeBack
    rw [hdirty]
  rw [hwriteBack]
  unfold filewrite
  rw [hwritable]
  by_cases hopen : (m.file v.file).writable = true
  · rw [if_neg (not_not.mpr hopen), if_neg (by omega)]
    constructor
    · rintro ⟨hok, hw⟩
      cases hresult : writeLoop v.file v.len.toNat (m.seek v.file v.offset) v.addr v.len.toNat with
      | error e =>
        rw [hresult] at hok
        cases hok
      | ok r =>
        obtain ⟨done, m₂⟩ := r
        rw [hresult] at hok
        cases hok
        have hdone : done = true := by
          by_contra hfailed
          rw [if_neg hfailed] at hw
          exact absurd hw (by decide)
        rw [hdone] at hresult ⊢
        obtain ⟨bs, hflush⟩ := (hloop m').mp hresult
        obtain ⟨hfits, m₁, hreads, heq⟩ := flush_seek_iff.mp hflush
        exact ⟨bs, m₁, ⟨⟨hopen, hfits⟩, hreads⟩, if_pos rfl, heq⟩
    · rintro ⟨bs, m₁, ⟨⟨-, hfits⟩, hreads⟩, rfl, heq⟩
      have hflush := flush_seek_iff.mpr ⟨hfits, m₁, hreads, heq⟩
      rw [(hloop m').mpr ⟨bs, hflush⟩]
      exact ⟨rfl, by omega⟩
  · rw [if_pos hopen]
    constructor
    · rintro ⟨hok, hw⟩
      cases hok
      exact absurd hw (by decide)
    · rintro ⟨bs, m₁, hflush, -⟩
      exact absurd hflush.takes.writable hopen

end Machine

end Cs537.P5
