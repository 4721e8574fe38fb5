import Cs537.Lib.Owners
import Cs537.P5.Dinode

/-!
# Contents of files

`bmap` finds the block of a file in the addresses of the inode or in the block of addresses, and
allocates what is missing; `readi`, `writei` and `itrunc` are built on it. Every block that is
marked in the bitmap belongs to one place in one file.
-/

namespace Cs537.P5

open Cs537.Lib

/-- `MAXFILE`, in blocks. -/
def maxFile : Nat := 12 + 128

namespace Fs

/-! ## The functions -/

/-- What `bmap` leaves behind, with the addresses in the inode and the one it returns. -/
structure Mapped where
  fs : Fs
  addrs : Addrs
  addr : UInt32

/-- `if((addr = ip->addrs[i]) == 0) ip->addrs[i] = addr = balloc(ip->dev);` -/
def addrOf (sb : Superblock) (s : Fs) (addrs : Addrs) (i : Fin 13) : Option Mapped :=
  if addrs i = 0 then
    (balloc sb s).map fun r => ⟨r.1, Function.update addrs i (.ofNat r.2), .ofNat r.2⟩
  else some ⟨s, addrs, addrs i⟩

/-- `if((addr = a[bn]) == 0)`, with `a` in block `t.addr`. -/
def entryOf (sb : Superblock) (t : Mapped) (bn : Nat) : Option Mapped :=
  if (t.fs.disk t.addr.toNat).word bn = 0 then
    (balloc sb t.fs).map fun r =>
      ⟨r.1.logWrite t.addr.toNat ((r.1.disk t.addr.toNat).setWord bn (.ofNat r.2)), t.addrs,
        .ofNat r.2⟩
  else some ⟨t.fs, t.addrs, (t.fs.disk t.addr.toNat).word bn⟩

/-- `bmap` (`fs.c:372-400`). -/
def bmap (sb : Superblock) (s : Fs) (addrs : Addrs) (bn : Nat) : Option Mapped :=
  if h : bn < 12 then addrOf sb s addrs ⟨bn, Nat.lt_succ_of_lt h⟩
  else if bn - 12 < 128 then (addrOf sb s addrs 12).bind fun t => entryOf sb t (bn - 12)
  else none

/-- The loop of `readi`. -/
def readLoop (sb : Superblock) : Nat → Fs → Addrs → Nat → Nat → Option (Fs × Addrs × Bytes)
  | 0, s, addrs, _, _ => some (s, addrs, [])
  | fuel + 1, s, addrs, off, left =>
    if left = 0 then some (s, addrs, [])
    else
      (bmap sb s addrs (off / bsize)).bind fun r =>
        let m := min left (bsize - off % bsize)
        (readLoop sb fuel r.fs r.addrs (off + m) (left - m)).map fun rest =>
          (rest.1, rest.2.1, (r.fs.disk r.addr.toNat).slice (off % bsize) m ++ rest.2.2)

/-- `readi` (`fs.c:452-476`) on an inode that is not a device; no bytes for `-1`. -/
def readi (sb : Superblock) (s : Fs) (ip : Dinode) (off n : Nat) :
    Option (Fs × Dinode × Option Bytes) :=
  if ip.size.toNat < off ∨ (off + n) % 2 ^ 32 < off then some (s, ip, none)
  else
    let n := if ip.size.toNat < (off + n) % 2 ^ 32 then ip.size.toNat - off else n
    (readLoop sb n s ip.addrs off n).map fun r => (r.1, { ip with addrs := r.2.1 }, some r.2.2)

/-- The loop of `writei`. -/
def writeLoop (sb : Superblock) : Nat → Fs → Addrs → Nat → Bytes → Option (Fs × Addrs)
  | 0, s, addrs, _, _ => some (s, addrs)
  | fuel + 1, s, addrs, off, src =>
    if src = [] then some (s, addrs)
    else
      (bmap sb s addrs (off / bsize)).bind fun r =>
        let m := min src.length (bsize - off % bsize)
        let blk := (r.fs.disk r.addr.toNat).write (off % bsize) (src.take m)
        writeLoop sb fuel (r.fs.logWrite r.addr.toNat blk) r.addrs (off + m) (src.drop m)

/-- `writei` (`fs.c:481-511`) on an inode that is not a device. -/
def writei (sb : Superblock) (s : Fs) (inum : Nat) (ip : Dinode) (off : Nat) (src : Bytes) :
    Option (Fs × Dinode × Int) :=
  if ip.size.toNat < off ∨ (off + src.length) % 2 ^ 32 < off then some (s, ip, -1)
  else if maxFile * bsize < off + src.length then some (s, ip, -1)
  else
    (writeLoop sb src.length s ip.addrs off src).map fun r =>
      if 0 < src.length ∧ ip.size.toNat < off + src.length then
        let ip := { ip with addrs := r.2, size := .ofNat (off + src.length) }
        (iupdate sb r.1 inum ip, ip, src.length)
      else (r.1, { ip with addrs := r.2 }, src.length)

/-- `bfree` on all addresses that are not 0. -/
def freeAll (sb : Superblock) : Fs → List UInt32 → Option Fs
  | s, [] => some s
  | s, a :: as =>
    if a = 0 then freeAll sb s as else (bfree sb s a.toNat).bind fun s => freeAll sb s as

/-- `itrunc` (`fs.c:407-435`). -/
def itrunc (sb : Superblock) (s : Fs) (inum : Nat) (ip : Dinode) : Option (Fs × Dinode) :=
  (freeAll sb s ((List.finRange 12).map fun i => ip.addrs i.castSucc)).bind fun s =>
    let table := ip.addrs 12
    let rest :=
      if table = 0 then some s
      else
        (freeAll sb s ((List.range 128).map (s.disk table.toNat).word)).bind fun s =>
          bfree sb s table.toNat
    rest.map fun s =>
      let ip := { ip with addrs := fun _ => 0, size := 0 }
      (iupdate sb s inum ip, ip)

/-! ## Places -/

/-- The places for addresses in a file. -/
inductive Slot
  | data (k : Nat)
  | table
deriving DecidableEq

/-- The places that exist. -/
def Slot.Real : Slot → Prop
  | data k => k < maxFile
  | table => True

/-- The address in a place. -/
def slotAddr (disk : Nat → Block) (addrs : Addrs) : Slot → UInt32
  | .table => addrs 12
  | .data k =>
    if h : k < 12 then addrs ⟨k, Nat.lt_succ_of_lt h⟩
    else if addrs 12 = 0 then 0 else (disk (addrs 12).toNat).word (k - 12)

/-- How far a file has grown. -/
structure Shape where
  blocks : Nat
  table : Bool

namespace Shape

/-- The places that hold an address. -/
def Held (sh : Shape) : Slot → Prop
  | .data k => k < sh.blocks
  | .table => sh.table = true

/-- The shape of a file with so many blocks. -/
def of (n : Nat) : Shape := ⟨n, decide (12 < n)⟩

end Shape

/-- The files: addresses and shape. -/
abbrev FileMap := Nat → Option (Addrs × Shape)

/-- File `i` has block `b` in a place. -/
def Owns (disk : Nat → Block) (files : FileMap) (p : Nat × Slot) (b : Nat) : Prop :=
  ∃ addrs sh, files p.1 = some (addrs, sh) ∧ sh.Held p.2 ∧ (slotAddr disk addrs p.2).toNat = b

/-- The marked blocks behind the metadata. -/
def Marked (sb : Superblock) (disk : Nat → Block) (b : Nat) : Prop :=
  sb.datastart ≤ b ∧ b < sb.size ∧ used sb disk b = true

/-- The addresses fit the shape. -/
structure Shaped (disk : Nat → Block) (addrs : Addrs) (sh : Shape) : Prop where
  le : sh.blocks ≤ maxFile
  table : 12 < sh.blocks → sh.table = true
  empty : ∀ t, t.Real → ¬ sh.Held t → slotAddr disk addrs t = 0

/-- The bitmap is right. -/
structure Layout (sb : Superblock) (disk : Nat → Block) (files : FileMap) : Prop where
  metadata : ∀ b < sb.datastart, used sb disk b = true
  exact : Exact (Marked sb disk) (Owns disk files)
  shaped : ∀ i addrs sh, files i = some (addrs, sh) → Shaped disk addrs sh

variable {sb : Superblock} {s s' : Fs} {disk disk' : Nat → Block} {files : FileMap}
  {i j b c n k : Nat}
  {addrs addrs' : Addrs} {sh sh' : Shape} {t : Slot} {a : UInt32}

theorem Shape.real_of_held (hle : sh.blocks ≤ maxFile) (h : sh.Held t) : t.Real := by
  cases t with
  | data k => exact Nat.lt_of_lt_of_le h hle
  | table => trivial

theorem slotAddr_direct (disk : Nat → Block) (addrs : Addrs) (hk : k < 12) :
    slotAddr disk addrs (.data k) = addrs ⟨k, Nat.lt_succ_of_lt hk⟩ := dif_pos hk

theorem slotAddr_indirect (disk : Nat → Block) (addrs : Addrs) (hk : ¬ k < 12) :
    slotAddr disk addrs (.data k) =
      if addrs 12 = 0 then 0 else (disk (addrs 12).toNat).word (k - 12) := dif_neg hk

theorem slotAddr_congr (h : addrs 12 ≠ 0 → disk' (addrs 12).toNat = disk (addrs 12).toNat)
    (t : Slot) : slotAddr disk' addrs t = slotAddr disk addrs t := by
  cases t with
  | table => rfl
  | data k =>
    unfold slotAddr
    by_cases hzero : addrs 12 = 0
    · simp only [hzero, if_true]
    · rw [h hzero]

theorem shaped_empty (disk : Nat → Block) : Shaped disk (fun _ => 0) (.of 0) := by
  refine ⟨Nat.zero_le _, fun hlt => absurd hlt (Nat.not_lt_zero _), fun t _ _ => ?_⟩
  cases t with
  | table => rfl
  | data k =>
    by_cases hk : k < 12
    · rw [slotAddr_direct _ _ hk]
    · rw [slotAddr_indirect _ _ hk, if_pos rfl]

namespace Layout

theorem owns (h : files i = some (addrs, sh)) (ht : sh.Held t) :
    Owns disk files (i, t) (slotAddr disk addrs t).toNat := ⟨addrs, sh, h, ht, rfl⟩

theorem marked (h : Layout sb disk files) (hi : files i = some (addrs, sh)) (ht : sh.Held t) :
    Marked sb disk (slotAddr disk addrs t).toNat := h.exact.sound (owns hi ht)

/-- Addresses that are not 0 are held. -/
theorem held_of_ne_zero (h : Layout sb disk files) (hi : files i = some (addrs, sh)) (ht : t.Real)
    (hne : slotAddr disk addrs t ≠ 0) : sh.Held t :=
  Classical.byContradiction fun hheld => hne ((h.shaped i addrs sh hi).empty t ht hheld)

theorem ne_zero_of_held (h : Layout sb disk files) (hi : files i = some (addrs, sh))
    (ht : sh.Held t) : slotAddr disk addrs t ≠ 0 := by
  intro hzero
  have hge := (h.marked hi ht).1
  have hpos := Nat.lt_of_le_of_lt (Nat.zero_le _) sb.bmapstart_lt
  rw [hzero] at hge
  exact absurd hge (Nat.not_le_of_lt hpos)

/-- The block of addresses of a file is its own. -/
theorem owns_table (h : Layout sb disk files) (hi : files i = some (addrs, sh))
    (hne : addrs 12 ≠ 0) : Owns disk files (i, .table) (addrs 12).toNat :=
  owns (t := .table) hi (h.held_of_ne_zero (t := .table) hi trivial hne)

/-- Places of other files, or other places, have other blocks. -/
theorem ne_of_owns (h : Layout sb disk files) {p q : Nat × Slot} (hp : Owns disk files p b)
    (hq : Owns disk files q c) (hpq : p ≠ q) : b ≠ c := by
  rintro rfl
  exact hpq (h.exact.place hp hq)

/-- A change outside the bitmap and the blocks of addresses. -/
theorem frame (h : Layout sb disk files) (hused : ∀ b < sb.size, used sb disk' b = used sb disk b)
    (hmeta : sb.datastart ≤ sb.size) (htables : ∀ j addrs sh, files j = some (addrs, sh) →
      addrs 12 ≠ 0 → disk' (addrs 12).toNat = disk (addrs 12).toNat) : Layout sb disk' files where
  metadata b hb := by
    rw [hused b (Nat.lt_of_lt_of_le hb hmeta)]
    exact h.metadata b hb
  exact := by
    refine h.exact.congr (fun b => ?_) fun p b => ?_
    · refine and_congr_right fun _ => and_congr_right fun hlt => ?_
      rw [hused b hlt]
    · refine exists_congr fun addrs => exists_congr fun sh => and_congr_right fun hfile => ?_
      rw [slotAddr_congr (htables p.1 addrs sh hfile)]
  shaped j addrs sh hfile := by
    have hold := h.shaped j addrs sh hfile
    refine ⟨hold.le, hold.table, fun t ht hheld => ?_⟩
    rw [slotAddr_congr (htables j addrs sh hfile)]
    exact hold.empty t ht hheld

/-- A block given out by `balloc` becomes the content of an empty place. -/
theorem alloc (h : Layout sb s.disk files) (hal : Allocated sb s s' b)
    (hi : files i = some (addrs, sh)) (hempty : ¬ sh.Held t)
    (hused : ∀ c < sb.size, used sb disk' c = used sb s'.disk c)
    (hmeta : sb.datastart ≤ sb.size) (hslot : (slotAddr disk' addrs' t).toNat = b)
    (hslots : ∀ u, sh.Held u → slotAddr disk' addrs' u = slotAddr s.disk addrs u)
    (hheld : ∀ u, sh'.Held u ↔ sh.Held u ∨ u = t) (hshaped : Shaped disk' addrs' sh')
    (htables : ∀ j addrs sh, j ≠ i → files j = some (addrs, sh) → addrs 12 ≠ 0 →
      disk' (addrs 12).toNat = s.disk (addrs 12).toNat) :
    Layout sb disk' (Function.update files i (some (addrs', sh'))) where
  metadata c hc := by
    have hlt := Nat.lt_of_lt_of_le hc hmeta
    rw [hused c hlt, hal.used c hlt, h.metadata c hc, ite_self]
  exact := by
    refine h.exact.add (i := (i, t)) (b := b) ?_ ?_ (fun c => ?_) fun p c => ?_
    · rintro ⟨-, -, hmarked⟩
      rw [hal.free] at hmarked
      cases hmarked
    · rintro c ⟨addrs₁, sh₁, hfile, hheld₁, -⟩
      rw [hi] at hfile
      cases hfile
      exact hempty hheld₁
    · unfold Marked
      by_cases hcb : c = b
      · subst hcb
        rw [hused c hal.lt, hal.used c hal.lt, if_pos rfl]
        exact iff_of_true ⟨hal.ge, hal.lt, rfl⟩ (.inr rfl)
      · constructor
        · rintro ⟨hge, hlt, hmark⟩
          rw [hused c hlt, hal.used c hlt, if_neg hcb] at hmark
          exact .inl ⟨hge, hlt, hmark⟩
        · rintro (⟨hge, hlt, hmark⟩ | heq)
          · refine ⟨hge, hlt, ?_⟩
            rw [hused c hlt, hal.used c hlt, if_neg hcb]
            exact hmark
          · exact absurd heq hcb
    · obtain ⟨j, u⟩ := p
      unfold Owns
      by_cases hj : j = i
      · subst hj
        dsimp only
        rw [Function.update_self]
        constructor
        · rintro ⟨addrs₁, sh₁, hfile, hheld₁, haddr⟩
          cases hfile
          rcases (hheld u).mp hheld₁ with hold | rfl
          · refine .inl ⟨addrs, sh, hi, hold, ?_⟩
            rw [← hslots u hold]
            exact haddr
          · exact .inr ⟨rfl, haddr.symm.trans hslot⟩
        · rintro (⟨addrs₁, sh₁, hfile, hheld₁, haddr⟩ | ⟨hu, rfl⟩)
          · rw [hi] at hfile
            cases hfile
            refine ⟨addrs', sh', rfl, (hheld u).mpr (.inl hheld₁), ?_⟩
            rw [hslots u hheld₁]
            exact haddr
          · cases hu
            exact ⟨addrs', sh', rfl, (hheld _).mpr (.inr rfl), hslot⟩
      · dsimp only
        rw [Function.update_of_ne hj]
        have hnot : ¬ ((j, u) = (i, t) ∧ c = b) := by
          rintro ⟨hp, -⟩
          exact hj (congrArg Prod.fst hp)
        rw [or_iff_left hnot]
        refine exists_congr fun addrs₁ => exists_congr fun sh₁ => and_congr_right fun hfile => ?_
        rw [slotAddr_congr (htables j addrs₁ sh₁ hj hfile)]
  shaped j addrs₁ sh₁ hfile := by
    by_cases hj : j = i
    · subst hj
      rw [Function.update_self] at hfile
      cases hfile
      exact hshaped
    · rw [Function.update_of_ne hj] at hfile
      have hold := h.shaped j addrs₁ sh₁ hfile
      refine ⟨hold.le, hold.table, fun u hu hheld₁ => ?_⟩
      rw [slotAddr_congr (htables j addrs₁ sh₁ hj hfile)]
      exact hold.empty u hu hheld₁

/-- `balloc` touches no block that is in use. -/
theorem disk_of_owns (h : Layout sb s.disk files) (hal : Allocated sb s s' b) {p : Nat × Slot}
    (hp : Owns s.disk files p c) : s'.disk c = s.disk c := by
  have hmarked := h.exact.sound hp
  refine hal.others c ?_ (.inr hmarked.1)
  rintro rfl
  have hused := hmarked.2.2
  rw [hal.free] at hused
  cases hused

end Layout

/-! ## Growing files -/

/-- From one layout to another in which files may have more places. -/
structure Grown (sb : Superblock) (s : Fs) (files : FileMap) (s' : Fs) (files' : FileMap) :
    Prop where
  layout : Layout sb s'.disk files'
  inodes : ∀ c < sb.bmapstart, s'.disk c = s.disk c
  slots : ∀ j addrs sh, files j = some (addrs, sh) → ∃ addrs' sh', files' j = some (addrs', sh') ∧
    ∀ u, sh.Held u → sh'.Held u ∧ slotAddr s'.disk addrs' u = slotAddr s.disk addrs u
  data : ∀ j k c, Owns s.disk files (j, .data k) c → s'.disk c = s.disk c

namespace Grown

variable {files' files'' : FileMap} {s'' : Fs}

theorem refl (h : Layout sb s.disk files) : Grown sb s files s files :=
  ⟨h, fun _ _ => rfl, fun _ addrs sh hj => ⟨addrs, sh, hj, fun _ hu => ⟨hu, rfl⟩⟩,
    fun _ _ _ _ => rfl⟩

theorem owns (h : Grown sb s files s' files') {p : Nat × Slot} (hp : Owns s.disk files p c) :
    Owns s'.disk files' p c := by
  obtain ⟨addrs, sh, hfile, hheld, haddr⟩ := hp
  obtain ⟨addrs', sh', hfile', hslots⟩ := h.slots _ _ _ hfile
  obtain ⟨hheld', heq⟩ := hslots _ hheld
  exact ⟨addrs', sh', hfile', hheld', by rw [heq, haddr]⟩

theorem trans (h : Grown sb s files s' files') (h' : Grown sb s' files' s'' files'') :
    Grown sb s files s'' files'' where
  layout := h'.layout
  inodes c hc := (h'.inodes c hc).trans (h.inodes c hc)
  slots j addrs sh hj := by
    obtain ⟨addrs', sh', hj', hslots⟩ := h.slots j addrs sh hj
    obtain ⟨addrs'', sh'', hj'', hslots'⟩ := h'.slots j addrs' sh' hj'
    refine ⟨addrs'', sh'', hj'', fun u hu => ?_⟩
    obtain ⟨hu', heq⟩ := hslots u hu
    obtain ⟨hu'', heq'⟩ := hslots' u hu'
    exact ⟨hu'', heq'.trans heq⟩
  data j k c hc := (h'.data j k c (h.owns hc)).trans (h.data j k c hc)

end Grown

/-- File `i` gets new addresses and a new shape. -/
def setFile (files : FileMap) (i : Nat) (addrs : Addrs) (sh : Shape) : FileMap :=
  Function.update files i (some (addrs, sh))

theorem setFile_self (hi : files i = some (addrs, sh)) : setFile files i addrs sh = files := by
  unfold setFile
  rw [← hi, Function.update_eq_self]

theorem slots_setFile (hi : files i = some (addrs, sh))
    (hself : ∀ u, sh.Held u → sh'.Held u ∧ slotAddr disk' addrs' u = slotAddr disk addrs u)
    (hothers : ∀ j addrs sh, j ≠ i → files j = some (addrs, sh) → ∀ u,
      slotAddr disk' addrs u = slotAddr disk addrs u) :
    ∀ j addrs sh, files j = some (addrs, sh) → ∃ addrs₁ sh₁,
      setFile files i addrs' sh' j = some (addrs₁, sh₁) ∧
      ∀ u, sh.Held u → sh₁.Held u ∧ slotAddr disk' addrs₁ u = slotAddr disk addrs u := by
  intro j addrs₁ sh₁ hj
  unfold setFile
  by_cases hji : j = i
  · subst hji
    rw [hi] at hj
    cases hj
    exact ⟨addrs', sh', Function.update_self .., hself⟩
  · exact ⟨addrs₁, sh₁, by rw [Function.update_of_ne hji, hj],
      fun u hu => ⟨hu, hothers j addrs₁ sh₁ hji hj u⟩⟩

theorem toNat_ofNat_block (hsb : sb.LaidOut) (h : b < sb.size) : (UInt32.ofNat b).toNat = b :=
  UInt32.toNat_ofNat_of_lt' (Nat.lt_trans h hsb.size_lt)

/-- A new address in the inode. -/
theorem grown_addr (hsb : sb.LaidOut) (h : Layout sb s.disk files)
    (hi : files i = some (addrs, sh)) (hal : Allocated sb s s' b) (hempty : ¬ sh.Held t)
    (hslot : (slotAddr s'.disk addrs' t).toNat = b)
    (hslots : ∀ u, sh.Held u → slotAddr s'.disk addrs' u = slotAddr s.disk addrs u)
    (hheld : ∀ u, sh'.Held u ↔ sh.Held u ∨ u = t) (hshaped : Shaped s'.disk addrs' sh') :
    Grown sb s files s' (setFile files i addrs' sh') := by
  have htables : ∀ j addrs sh, j ≠ i → files j = some (addrs, sh) → addrs 12 ≠ 0 →
      s'.disk (addrs 12).toNat = s.disk (addrs 12).toNat :=
    fun j addrs₁ sh₁ _ hj hne => h.disk_of_owns hal (h.owns_table hj hne)
  refine ⟨h.alloc hal hi hempty (fun _ _ => rfl) hsb.size hslot hslots hheld hshaped htables,
    ?_, ?_,
    fun j k c hc => h.disk_of_owns hal hc⟩
  · intro c hc
    have hlt := sb.bmapstart_lt
    exact hal.others c (by have := hal.ge; omega) (.inl hc)
  · exact slots_setFile hi (fun u hu => ⟨(hheld u).mpr (.inl hu), hslots u hu⟩)
      fun j addrs₁ sh₁ hji hj u => slotAddr_congr (htables j addrs₁ sh₁ hji hj) u

theorem addrOf_of_ne_zero {k : Fin 13} (hne : addrs k ≠ 0) :
    addrOf sb s addrs k = some ⟨s, addrs, addrs k⟩ := if_neg hne

theorem addrOf_of_zero {k : Fin 13} {r : Mapped} (hzero : addrs k = 0)
    (h : addrOf sb s addrs k = some r) :
    ∃ s' b, balloc sb s = some (s', b) ∧
      r = ⟨s', Function.update addrs k (.ofNat b), .ofNat b⟩ := by
  unfold addrOf at h
  rw [if_pos hzero, Option.map_eq_some_iff] at h
  obtain ⟨⟨s', b⟩, hb, rfl⟩ := h
  exact ⟨s', b, hb, rfl⟩

/-- The shape with one more block. -/
theorem held_succ (sh : Shape) (u : Slot) :
    Shape.Held { sh with blocks := sh.blocks + 1 } u ↔ sh.Held u ∨ u = .data sh.blocks := by
  cases u with
  | table => exact ⟨.inl, fun h => h.resolve_right fun heq => by cases heq⟩
  | data k =>
    refine Nat.lt_succ_iff_lt_or_eq.trans (or_congr_right ?_)
    exact ⟨fun h => h ▸ rfl, fun h => Slot.data.inj h⟩

/-- `bmap` for the next block, which has its address in the inode. -/
theorem grown_direct (hsb : sb.LaidOut) (h : Layout sb s.disk files)
    (hi : files i = some (addrs, sh)) (hn : sh.blocks < 12) {r : Mapped}
    (hr : addrOf sb s addrs ⟨sh.blocks, Nat.lt_succ_of_lt hn⟩ = some r) :
    Grown sb s files r.fs (setFile files i r.addrs { sh with blocks := sh.blocks + 1 }) ∧
      slotAddr r.fs.disk r.addrs (.data sh.blocks) = r.addr := by
  have hold := h.shaped i addrs sh hi
  have hempty : ¬ sh.Held (.data sh.blocks) := Nat.lt_irrefl _
  have hmax : sh.blocks < maxFile := Nat.lt_trans hn (by decide)
  have hzero : addrs ⟨sh.blocks, Nat.lt_succ_of_lt hn⟩ = 0 := by
    have := hold.empty (.data sh.blocks) hmax hempty
    rwa [slotAddr_direct _ _ hn] at this
  obtain ⟨s', b, hb, rfl⟩ := addrOf_of_zero hzero hr
  have hal := allocated_balloc h.metadata hb
  have hslotEq : slotAddr s'.disk
      (Function.update addrs ⟨sh.blocks, Nat.lt_succ_of_lt hn⟩ (.ofNat b))
      (.data sh.blocks) = .ofNat b := by
    rw [slotAddr_direct _ _ hn, Function.update_self]
  have hothers : ∀ u, u ≠ .data sh.blocks →
      slotAddr s'.disk (Function.update addrs ⟨sh.blocks, Nat.lt_succ_of_lt hn⟩ (.ofNat b)) u =
        slotAddr s.disk addrs u := by
    intro u hu
    have htable : (12 : Fin 13) ≠ ⟨sh.blocks, Nat.lt_succ_of_lt hn⟩ := by
      intro heq
      have := congrArg Fin.val heq
      exact absurd this.symm (Nat.ne_of_lt hn)
    have hold : slotAddr s'.disk addrs u = slotAddr s.disk addrs u :=
      slotAddr_congr (fun hne => h.disk_of_owns hal (h.owns_table hi hne)) u
    rw [← hold]
    cases u with
    | table => exact Function.update_of_ne htable ..
    | data k =>
      by_cases hk : k < 12
      · rw [slotAddr_direct _ _ hk, slotAddr_direct _ _ hk, Function.update_of_ne]
        intro heq
        exact hu (congrArg Slot.data (congrArg Fin.val heq))
      · rw [slotAddr_indirect _ _ hk, slotAddr_indirect _ _ hk, Function.update_of_ne htable]
  refine ⟨?_, hslotEq⟩
  refine grown_addr hsb h hi hal hempty ?_ (fun u hu => hothers u ?_) (held_succ sh) ?_
  · rw [hslotEq, toNat_ofNat_block hsb hal.lt]
  · rintro rfl
    exact hempty hu
  · refine ⟨hmax, fun h12 => absurd h12 (Nat.not_lt_of_le hn), fun u hu hheld => ?_⟩
    rw [held_succ, not_or] at hheld
    rw [hothers u hheld.2]
    exact hold.empty u hu hheld.1

theorem word_zero (k : Nat) : Block.zero.word k = 0 := by
  have hmem : Block.zero.mem = fun _ => 0 := by
    funext a
    unfold Block.mem Block.zero
    rw [dite_eq_ite, ite_self]
  unfold Block.word Mem.u32 Mem.slice
  rw [hmem]
  rfl

/-- The block of addresses is allocated. -/
theorem grown_table (hsb : sb.LaidOut) (h : Layout sb s.disk files)
    (hi : files i = some (addrs, sh)) (htable : sh.table = false) {r : Mapped}
    (hr : addrOf sb s addrs 12 = some r) :
    Grown sb s files r.fs (setFile files i r.addrs { sh with table := true }) ∧
      r.addrs 12 = r.addr := by
  have hold := h.shaped i addrs sh hi
  have hempty : ¬ sh.Held .table := by
    intro hheld
    exact absurd (htable.symm.trans hheld) Bool.false_ne_true
  have hn : ¬ 12 < sh.blocks := fun hlt => hempty (hold.table hlt)
  obtain ⟨s', b, hb, rfl⟩ := addrOf_of_zero (hold.empty .table trivial hempty) hr
  have hal := allocated_balloc h.metadata hb
  have hothers : ∀ u, u ≠ .table → u.Real →
      slotAddr s'.disk (Function.update addrs 12 (.ofNat b)) u = slotAddr s.disk addrs u := by
    intro u hu hreal
    cases u with
    | table => exact absurd rfl hu
    | data k =>
      by_cases hk : k < 12
      · rw [slotAddr_direct _ _ hk, slotAddr_direct _ _ hk, Function.update_of_ne]
        intro heq
        exact absurd (congrArg Fin.val heq) (Nat.ne_of_lt hk)
      · -- the new block of addresses holds none
        rw [hold.empty (.data k) hreal fun hheld => hk (by have : k < sh.blocks := hheld; omega),
          slotAddr_indirect _ _ hk, Function.update_self, toNat_ofNat_block hsb hal.lt, hal.zero,
          word_zero, ite_self]
  have hself : Function.update addrs 12 (UInt32.ofNat b) 12 = .ofNat b := Function.update_self ..
  refine ⟨?_, hself⟩
  refine grown_addr hsb h hi hal hempty ?_ (fun u hu => hothers u ?_ ?_) (fun u => ?_) ?_
  · exact (congrArg UInt32.toNat hself).trans (toNat_ofNat_block hsb hal.lt)
  · rintro rfl
    exact hempty hu
  · exact Shape.real_of_held hold.le hu
  · cases u with
    | table => exact iff_of_true rfl (.inr rfl)
    | data k => exact ⟨.inl, fun hor => hor.resolve_right fun heq => by cases heq⟩
  · refine ⟨hold.le, fun _ => rfl, fun u hu hheld => ?_⟩
    have hne : u ≠ .table := by
      rintro rfl
      exact hheld rfl
    rw [hothers u hne hu]
    refine hold.empty u hu fun hheld' => hheld ?_
    cases u with
    | table => rfl
    | data k => exact hheld'

/-- A new address in the block of addresses. -/
theorem grown_entry (hsb : sb.LaidOut) {m : Mapped} (h : Layout sb m.fs.disk files)
    (hi : files i = some (m.addrs, sh)) (htable : sh.table = true) (haddr : m.addrs 12 = m.addr)
    (hn : ¬ sh.blocks < 12) (hmax : sh.blocks < maxFile) {r : Mapped}
    (hr : entryOf sb m (sh.blocks - 12) = some r) :
    Grown sb m.fs files r.fs (setFile files i r.addrs { sh with blocks := sh.blocks + 1 }) ∧
      slotAddr r.fs.disk r.addrs (.data sh.blocks) = r.addr := by
  have hold := h.shaped i m.addrs sh hi
  have hempty : ¬ sh.Held (.data sh.blocks) := Nat.lt_irrefl _
  have hne : m.addrs 12 ≠ 0 := h.ne_zero_of_held (t := .table) hi htable
  have hword : (m.fs.disk m.addr.toNat).word (sh.blocks - 12) = 0 := by
    have := hold.empty (.data sh.blocks) hmax hempty
    rwa [slotAddr_indirect _ _ hn, if_neg hne, haddr] at this
  have hk : sh.blocks - 12 < 128 := by
    unfold maxFile at hmax
    omega
  unfold entryOf at hr
  rw [if_pos hword, Option.map_eq_some_iff] at hr
  obtain ⟨⟨s', b⟩, hb, rfl⟩ := hr
  have hal := allocated_balloc h.metadata hb
  have hown := h.owns_table hi hne
  rw [haddr] at hown
  have hmarked := h.exact.sound hown
  have hsame := h.disk_of_owns hal hown
  dsimp only
  rw [hsame]
  generalize hd : s'.logWrite m.addr.toNat
    ((m.fs.disk m.addr.toNat).setWord (sh.blocks - 12) (.ofNat b)) = d
  -- the block of addresses after the change, and the blocks of the other places
  have hself : d.disk (m.addrs 12).toNat =
      (m.fs.disk m.addr.toNat).setWord (sh.blocks - 12) (.ofNat b) := by
    rw [← hd, haddr]
    exact disk_logWrite_self ..
  have hrest : ∀ c, c ≠ m.addr.toNat → d.disk c = s'.disk c := by
    intro c hc
    rw [← hd]
    exact disk_logWrite_of_ne _ _ hc
  have hdisk : ∀ {p : Nat × Slot} {c : Nat}, Owns m.fs.disk files p c → p ≠ (i, .table) →
      d.disk c = m.fs.disk c := by
    intro p c hp hpi
    rw [hrest c (h.ne_of_owns hp hown hpi)]
    exact h.disk_of_owns hal hp
  have htables : ∀ j addrs₁ sh₁, j ≠ i → files j = some (addrs₁, sh₁) → addrs₁ 12 ≠ 0 →
      d.disk (addrs₁ 12).toNat = m.fs.disk (addrs₁ 12).toNat :=
    fun j addrs₁ sh₁ hji hj hne₁ =>
      hdisk (h.owns_table hj hne₁) fun heq => hji (congrArg Prod.fst heq)
  have hslotEq : slotAddr d.disk m.addrs (.data sh.blocks) = .ofNat b := by
    rw [slotAddr_indirect _ _ hn, if_neg hne, hself, Block.word_setWord hk]
  have hothers : ∀ u, u ≠ .data sh.blocks →
      slotAddr d.disk m.addrs u = slotAddr m.fs.disk m.addrs u := by
    intro u hu
    cases u with
    | table => rfl
    | data k =>
      by_cases hk12 : k < 12
      · rw [slotAddr_direct _ _ hk12, slotAddr_direct _ _ hk12]
      · have hkn : k - 12 ≠ sh.blocks - 12 := by
          intro heq
          exact hu (congrArg Slot.data (by omega))
        rw [slotAddr_indirect _ _ hk12, slotAddr_indirect _ _ hk12, if_neg hne, if_neg hne, hself,
          Block.word_setWord_of_ne hk hkn, haddr]
  have hheldne : ∀ u, sh.Held u → u ≠ .data sh.blocks := by
    rintro u hu rfl
    exact hempty hu
  have hheld := held_succ sh
  have hlayout :
      Layout sb d.disk (setFile files i m.addrs { sh with blocks := sh.blocks + 1 }) := by
    refine h.alloc hal hi hempty (fun c hc => used_congr (hrest _ ?_)) hsb.size ?_
      (fun u hu => hothers u (hheldne u hu)) hheld ?_ htables
    · have hlt := (bblock_lt hc).2
      have hge := hmarked.1
      omega
    · rw [hslotEq, toNat_ofNat_block hsb hal.lt]
    · refine ⟨hmax, fun _ => htable, fun u hu hheld' => ?_⟩
      rw [hheld, not_or] at hheld'
      rw [hothers u hheld'.2]
      exact hold.empty u hu hheld'.1
  refine ⟨⟨hlayout, fun c hc => ?_, ?_, fun j k c hc => hdisk hc fun heq => by cases heq⟩, hslotEq⟩
  · have hlt := sb.bmapstart_lt
    have hge := hmarked.1
    have hgeb := hal.ge
    rw [hrest c (by omega)]
    exact hal.others c (by omega) (.inl hc)
  · exact slots_setFile hi (fun u hu => ⟨(hheld u).mpr (.inl hu), hothers u (hheldne u hu)⟩)
      fun j addrs₁ sh₁ hji hj u => slotAddr_congr (htables j addrs₁ sh₁ hji hj) u

end Fs

end Cs537.P5
