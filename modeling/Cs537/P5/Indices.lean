import Cs537.P5.ClearMaps
import Cs537.P5.FailedMap

/-!
# Which entries of `vmas` are accessed

`vmas` has 32 entries. For each function that works on the array, here is the list of the indices
it uses, written along the function itself. The indices stay in range except at three places:
`check_mmap_possible` looks at `vmas[total_vmas - 1]` before it knows that there is an entry,
`find_mmap_addr` may put a mapping behind entry 31, and the loop of `umunmap` that closes the gap
looks at `vmas[32]` if all entries behind the one that is removed have an address.
-/

namespace Cs537.P5

open Cs537.Lib

/-- All indices of a list are in the array. -/
def InRange (l : List Int) : Prop := ∀ i ∈ l, 0 ≤ i ∧ i ≤ 31

theorem inRange_nil : InRange [] := fun i hi => by cases hi

@[simp] theorem inRange_cons {i : Int} {l : List Int} :
    InRange (i :: l) ↔ (0 ≤ i ∧ i ≤ 31) ∧ InRange l :=
  List.forall_mem_cons

@[simp] theorem inRange_append {l l' : List Int} : InRange (l ++ l') ↔ InRange l ∧ InRange l' :=
  List.forall_mem_append

namespace Table

/-! ## The indices that are used -/

/-- The right shift of `setup_mmap_arr` (`sys_mmap.c:149-152`), `n` rounds from `j` down. -/
def shiftIndices : Nat → Int → List Int
  | 0, _ => []
  | n + 1, j => j :: (j - 1) :: shiftIndices n (j - 1)

/-- `setup_mmap_arr` (`sys_mmap.c:147-160`). -/
def setupIndices (t : Table) (size i mmapaddr : Int) : List Int :=
  shiftIndices (t.totalVmas - (i + 1)).toNat t.totalVmas ++
    if kernBase ≤ u32 (pgroundup (i32 (mmapaddr + size))) then [] else [i + 1]

/-- The loop of `check_mmap_possible` (`sys_mmap.c:168-178`), `n` rounds left. -/
def gapIndices (t : Table) (mmapAddr size : Int) : Nat → Int → List Int
  | 0, _ => []
  | n + 1, i =>
    i :: if mmapAddr ≤ (t.vmas i).addr then []
      else (i + 1) ::
        if t.endOf i < mmapAddr ∧ i32 (mmapAddr + size) < pgroundup (t.vmas (i + 1)).addr then
          t.setupIndices size i mmapAddr
        else gapIndices t mmapAddr size n (i + 1)

/-- `check_mmap_possible` (`sys_mmap.c:162-180`). -/
def checkIndices (t : Table) (addr size : Int) : List Int :=
  let mmapAddr := pgroundup addr
  (t.totalVmas - 1) ::
    if t.endOf (t.totalVmas - 1) < mmapAddr then t.setupIndices size (t.totalVmas - 1) mmapAddr
    else t.gapIndices mmapAddr size (t.totalVmas - 1).toNat 0

/-- The loop of `find_mmap_addr` (`sys_mmap.c:200-207`), `n` rounds left. -/
def searchIndices (t : Table) (size : Int) : Nat → Int → List Int
  | 0, _ => []
  | n + 1, i =>
    (i + 1) :: if (t.vmas (i + 1)).addr ≠ 0 then
        i :: if t.wide size i then [] else searchIndices t size n (i + 1)
      else []

/-- `find_mmap_addr` (`sys_mmap.c:182-214`). -/
def findIndices (t : Table) (size : Int) : List Int :=
  if t.totalVmas = 0 then
    if kernBase ≤ u32 (pgroundup (i32 (mmapBase + size))) then [] else [0]
  else 0 :: if size < i32 ((t.vmas 0).addr - mmapBase) then t.setupIndices size (-1) mmapBase
    else
      let i := t.findGap size t.totalVmas.toNat 0
      let mmapaddr := u32 (t.endOf i)
      t.searchIndices size t.totalVmas.toNat 0 ++ i ::
        if kernBase < u32 (mmapaddr + size) then [] else t.setupIndices size i (i32 mmapaddr)

/-- The choice of the entry in `ummap` (`sys_mmap.c:228-262`). -/
def chooseIndices (t : Table) (addr length : Int) (flags : UInt32) : List Int :=
  let rndAddr := pgroundup (i32 (pgroundup addr + length))
  if has flags mapFixed then
    if addr = 0 ∨ addr < mmapBase ∨ kernBase < u32 rndAddr then []
    else if kernBase < u32 rndAddr ∨ rndAddr % pgsize ≠ 0 then []
    else t.checkIndices addr length
  else if kernBase < u32 rndAddr then []
  else
    let checked := t.checkMmapPossible addr length
    t.checkIndices addr length ++ if checked.1 ≠ -1 then [] else checked.2.findIndices length

/-- `ummap` (`sys_mmap.c:216-271`). -/
def ummapIndices (t : Table) (addr length : Int) (flags : UInt32) : List Int :=
  if 32 ≤ t.totalVmas then []
  else if ¬ has flags mapPrivate ∧ ¬ has flags mapShared then []
  else
    let i := (t.chooseEntry addr length flags).1
    t.chooseIndices addr length flags ++ if i = -1 then [] else [i]

/-- The search of `umunmap` (`sys_mmap.c:283-288`), `n` rounds left. -/
def scanIndices (t : Table) (mainaddr : Int) : Nat → Int → List Int
  | 0, _ => []
  | n + 1, i => i :: if u32 (t.vmas i).addr = mainaddr then [] else scanIndices t mainaddr n (i + 1)

/-- The left shift of `umunmap` (`sys_mmap.c:322-325`), `n` rounds left. It writes no entry before
it looks at it. -/
def closeIndices (t : Table) : Nat → Int → List Int
  | 0, _ => []
  | n + 1, i =>
    (i + 1) :: if (t.vmas (i + 1)).addr ≠ 0 then i :: closeIndices t n (i + 1) else []

/-- `umunmap` (`sys_mmap.c:273-332`). -/
def umunmapIndices (t : Table) (addr length filewrite : Int) : List Int :=
  let mainaddr := u32 (pgroundup addr)
  t.scanIndices mainaddr 32 0 ++
    match t.findVma mainaddr with
    | none => []
    | some i =>
      let v := t.vmas i
      if v.len = 0 then []
      else i :: if has v.flags mapShared ∧ ¬ has v.flags mapAnonymous ∧ has v.prot protWrite ∧
          filewrite < 0 then []
        else if v.len ≤ pgroundup length then t.closeIndices (32 - i).toNat i
        else []

/-- The first loop of `pgft_handler` (`trap.c:114-127`), `n` rounds left. -/
def coverIndices (t : Table) (faultAddr : Int) : Nat → Int → List Int
  | 0, _ => []
  | n + 1, i =>
    i :: if u32 (t.vmas i).addr ≤ faultAddr ∧ faultAddr ≤ u32 ((t.vmas i).addr + (t.vmas i).len)
      then [] else coverIndices t faultAddr n (i + 1)

/-- `pgft_handler` (`trap.c:102-147`). The second loop ends behind its first round. -/
def pgftIndices (t : Table) (faultAddr : Int) : List Int :=
  if kernBase ≤ faultAddr ∨ faultAddr < mmapBase then []
  else t.coverIndices faultAddr t.totalVmas.toNat 0 ++
    match t.covering faultAddr with
    | some _ => []
    | none =>
      if 0 < t.totalVmas then
        0 :: if has (t.vmas 0).flags mapGrowsup ∧ t.totalVmas - 1 ≠ 0 then [1] else []
      else []

/-- `copy_maps` (`sys_mmap.c:84-145`), which goes through the entries of both tables, `n` of them. -/
def copyIndices (n : Int) : List Int := (List.range n.toNat).map fun (i : Nat) => (i : Int)

/-- The loop of `clear_maps` (`sys_mmap.c:336-341`), `n` rounds left. -/
def clearIndices (filewrite : Nat → Int) : Nat → Table → List Int
  | 0, _ => []
  | n + 1, t =>
    let v := t.vmas (t.totalVmas - 1)
    (t.totalVmas - 1) :: if v.refCount = 0 then
        t.umunmapIndices v.addr v.len (filewrite n) ++
          clearIndices filewrite n (t.umunmap v.addr v.len (filewrite n)).2.1
      else clearIndices filewrite n t

/-- The indices that a call uses. -/
def indices (t : Table) : Call → List Int
  | .ummap addr length _ flags _ _ => t.ummapIndices (i32 addr) (i32 length) flags
  | .umunmap addr length filewrite => t.umunmapIndices (i32 addr) (i32 length) filewrite
  | .pgft faultAddr _ => t.pgftIndices (u32 faultAddr)
  | .ofile _ | .neighbour _ => []

/-! ## Where they are in range -/

/-- A call of `ummap` that passes the checks finds a live entry, and if it goes on to search for a
place, that is not behind entry 31. -/
def PlacesInRange (t : Table) (addr length : Int) (flags : UInt32) : Prop :=
  t.Reaches addr length flags → 0 < t.totalVmas ∧
    (¬ has flags mapFixed → ¬ t.TakesHint addr length →
      ∀ x ∈ (t.hintShift addr length).findPlace length, Fits length x.2 → x.1 < 31)

/-- If `umunmap` removes an entry, one of those behind it has no address. -/
def ClosesInRange (t : Table) (addr length filewrite : Int) : Prop :=
  ∀ i, t.Removes addr length filewrite i → ∃ j, i < j ∧ j ≤ 31 ∧ (t.vmas j).addr = 0

/-- That holds in all rounds of `clear_maps`, `n` of them left. -/
def ClearsInRange (filewrite : Nat → Int) : Nat → Table → Prop
  | 0, _ => True
  | n + 1, t =>
    let v := t.vmas (t.totalVmas - 1)
    if v.refCount = 0 then
      t.ClosesInRange v.addr v.len (filewrite n) ∧
        ClearsInRange filewrite n (t.umunmap v.addr v.len (filewrite n)).2.1
    else ClearsInRange filewrite n t

/-- A call that stays inside the array. -/
def StaysInRange (t : Table) : Call → Prop
  | .ummap addr length _ flags _ _ => t.PlacesInRange (i32 addr) (i32 length) flags
  | .umunmap addr length filewrite => t.ClosesInRange (i32 addr) (i32 length) filewrite
  | .pgft .. | .ofile _ | .neighbour _ => True

variable {t : Table} {addr length : Int} {flags : UInt32} {size i a : Int} {n : Nat}

/-! ## Placing a mapping -/

theorem shiftIndices_inRange {j : Int} (hlow : (n : Int) ≤ j) (hj : j ≤ 31) :
    InRange (shiftIndices n j) := by
  induction n generalizing j with
  | zero => exact inRange_nil
  | succ n ih =>
    rw [shiftIndices, inRange_cons, inRange_cons]
    exact ⟨by omega, by omega, ih (by omega) (by omega)⟩

/-- The right shift stays below entry 31 when the table is not full; the new entry may not. -/
theorem setupIndices_inRange_iff (hi : -1 ≤ i) (hlow : 0 ≤ t.totalVmas) (hroom : t.totalVmas ≤ 31) :
    InRange (t.setupIndices size i a) ↔ (Fits size a → i < 31) := by
  unfold setupIndices
  rw [inRange_append]
  have hshift : InRange (shiftIndices (t.totalVmas - (i + 1)).toNat t.totalVmas) :=
    shiftIndices_inRange (by omega) hroom
  by_cases hfits : Fits size a
  · have hend : ¬ kernBase ≤ u32 (pgroundup (i32 (a + size))) := by
      unfold Fits at hfits
      omega
    rw [if_neg hend, inRange_cons]
    constructor
    · rintro ⟨-, ⟨-, hle⟩, -⟩ _
      omega
    · intro hlt
      have := hlt hfits
      exact ⟨hshift, by omega, inRange_nil⟩
  · have hend : kernBase ≤ u32 (pgroundup (i32 (a + size))) := by
      unfold Fits at hfits
      omega
    rw [if_pos hend]
    exact ⟨fun _ h => absurd h hfits, fun _ => ⟨hshift, inRange_nil⟩⟩

theorem gapIndices_inRange (hroom : t.totalVmas ≤ 31) (hi : 0 ≤ i) (hn : i + n < t.totalVmas) :
    InRange (t.gapIndices a size n i) := by
  induction n generalizing i with
  | zero => exact inRange_nil
  | succ n ih =>
    rw [gapIndices, inRange_cons]
    refine ⟨by omega, ?_⟩
    split
    · exact inRange_nil
    · rw [inRange_cons]
      refine ⟨by omega, ?_⟩
      split
      · rw [setupIndices_inRange_iff (by omega) (by omega) hroom]
        omega
      · exact ih (by omega) (by omega)

/-- `check_mmap_possible` looks at the last entry first. -/
theorem checkIndices_inRange_iff (hroom : t.totalVmas ≤ 31) :
    InRange (t.checkIndices addr size) ↔ 0 < t.totalVmas := by
  unfold checkIndices
  simp only
  rw [inRange_cons]
  constructor
  · rintro ⟨⟨hlow, -⟩, -⟩
    omega
  · intro hpos
    refine ⟨by omega, ?_⟩
    split
    · rw [setupIndices_inRange_iff (by omega) (by omega) hroom]
      omega
    · exact gapIndices_inRange hroom (Int.le_refl 0) (by omega)

theorem searchIndices_inRange (hi : 0 ≤ i) (hn : i + n ≤ 31) :
    InRange (t.searchIndices size n i) := by
  induction n generalizing i with
  | zero => exact inRange_nil
  | succ n ih =>
    rw [searchIndices, inRange_cons]
    refine ⟨by omega, ?_⟩
    split
    · rw [inRange_cons]
      refine ⟨by omega, ?_⟩
      split
      · exact inRange_nil
      · exact ih (by omega) (by omega)
    · exact inRange_nil

/-- `find_mmap_addr` leaves the array only with the new entry. -/
theorem findIndices_inRange_iff (hpos : 0 < t.totalVmas) (hroom : t.totalVmas ≤ 31) :
    InRange (t.findIndices size) ↔ ∀ x ∈ t.findPlace size, Fits size x.2 → x.1 < 31 := by
  have hne : ¬ t.totalVmas = 0 := by omega
  unfold findIndices findPlace
  rw [if_neg hne, if_neg hne, inRange_cons]
  by_cases hfront : size < i32 ((t.vmas 0).addr - mmapBase)
  · rw [if_pos hfront, if_pos hfront, setupIndices_inRange_iff (Int.le_refl _) (by omega) hroom]
    refine iff_of_true ⟨by decide, fun _ => by decide⟩ ?_
    intro x hx _
    cases hx
    show (-1 : Int) < 31
    decide
  · rw [if_neg hfront, if_neg hfront]
    obtain ⟨hlow, hle, -⟩ := t.findGap_spec size t.totalVmas.toNat 0
    generalize t.findGap size t.totalVmas.toNat 0 = i at hlow hle
    simp only
    rw [inRange_append, inRange_cons]
    have hsearch : InRange (t.searchIndices size t.totalVmas.toNat 0) :=
      searchIndices_inRange (Int.le_refl 0) (by omega)
    by_cases hhigh : kernBase < u32 (u32 (t.endOf i) + size)
    · rw [if_pos hhigh, if_pos hhigh]
      exact iff_of_true ⟨by decide, hsearch, by omega, inRange_nil⟩ (fun x hx => by cases hx)
    · rw [if_neg hhigh, if_neg hhigh, setupIndices_inRange_iff (by omega) (by omega) hroom]
      constructor
      · rintro ⟨-, -, -, hlt⟩ x hx hfits
        cases hx
        exact hlt hfits
      · intro hall
        have hlt : Fits size (i32 (u32 (t.endOf i))) → i < 31 :=
          hall (i, i32 (u32 (t.endOf i))) rfl
        exact ⟨by decide, hsearch, by omega, hlt⟩

/-- The checks of `ummap` use no entry. -/
theorem ummapIndices_of_not_reaches (h : ¬ t.Reaches addr length flags) :
    t.ummapIndices addr length flags = [] := by
  unfold ummapIndices
  by_cases hfull : 32 ≤ t.totalVmas
  · rw [if_pos hfull]
  · rw [if_neg hfull]
    by_cases hkind : ¬ has flags mapPrivate ∧ ¬ has flags mapShared
    · rw [if_pos hkind]
    · rw [if_neg hkind]
      obtain ⟨hlow, hor⟩ := low_of_not_reaches h hfull hkind
      have hnone : t.chooseIndices addr length flags = [] := by
        unfold chooseIndices
        simp only
        by_cases hfixed : has flags mapFixed = true
        · rw [if_pos hfixed, if_pos hlow]
        · rw [if_neg hfixed, if_pos (hor.resolve_left hfixed)]
      simp only [hnone, chooseEntry_of_low hlow hor, if_true, List.nil_append]

theorem Reaches.chooseIndices_eq (h : t.Reaches addr length flags) :
    t.chooseIndices addr length flags = t.checkIndices addr length ++
      if has flags mapFixed = true ∨ (t.checkMmapPossible addr length).1 ≠ -1 then []
      else (t.checkMmapPossible addr length).2.findIndices length := by
  have hbelow := h.below
  unfold chooseIndices
  simp only
  by_cases hfixed : has flags mapFixed = true
  · rw [if_pos hfixed, if_neg (h.not_low hfixed), if_neg h.not_past, if_pos (.inl hfixed),
      List.append_nil]
  · rw [if_neg hfixed, if_neg (by omega)]
    by_cases hfound : (t.checkMmapPossible addr length).1 ≠ -1
    · rw [if_pos hfound, if_pos (.inr hfound)]
    · rw [if_neg hfound, if_neg (fun hor => hor.elim hfixed hfound)]

@[simp] theorem hintShift_total (t : Table) (addr length : Int) :
    (t.hintShift addr length).totalVmas = t.totalVmas := by
  unfold hintShift
  cases t.checkIndex addr length with
  | none => rfl
  | some i => rfl

/-- The entry that `find_mmap_addr` makes. -/
theorem findMmapAddr_index (hfound : (t.findMmapAddr size).1 ≠ -1) :
    ∃ x ∈ t.findPlace size, Fits size x.2 ∧ (t.findMmapAddr size).1 = x.1 + 1 := by
  rw [findMmapAddr_eq] at hfound ⊢
  cases hplace : t.findPlace size with
  | none =>
    rw [hplace] at hfound
    exact absurd rfl hfound
  | some x =>
    rw [hplace] at hfound
    simp only at hfound ⊢
    by_cases hfits : Fits size x.2
    · exact ⟨x, rfl, hfits, (setupMmapArr_fits hfits).1⟩
    · rw [setupMmapArr_of_not_fits hfits] at hfound
      exact absurd rfl hfound

/-- `ummap` stays inside the array if and only if there is a live entry and the new one is not put
behind entry 31. -/
theorem ummapIndices_inRange_iff :
    InRange (t.ummapIndices addr length flags) ↔ t.PlacesInRange addr length flags := by
  by_cases hreaches : t.Reaches addr length flags
  · have hroom : t.totalVmas ≤ 31 := Int.le_of_lt_add_one hreaches.room
    have hkind := hreaches.kind
    have hlist : t.ummapIndices addr length flags = t.chooseIndices addr length flags ++
        if (t.chooseEntry addr length flags).1 = -1 then []
        else [(t.chooseEntry addr length flags).1] := by
      unfold ummapIndices
      rw [if_neg (by omega), if_neg (by tauto)]
    rw [hlist, hreaches.chooseIndices_eq, hreaches.chooseEntry_eq, inRange_append, inRange_append,
      checkIndices_inRange_iff hroom]
    by_cases hpos : 0 < t.totalVmas
    · by_cases hhint : t.TakesHint addr length
      · -- the entry is put behind a live one
        obtain ⟨i, hindex⟩ := Option.isSome_iff_exists.mp hhint.1
        obtain ⟨hlow, hlive⟩ := checkIndex_mem (Int.le_of_lt hpos) hindex
        have hchecked : (t.checkMmapPossible addr length).1 = i + 1 := by
          rw [checkMmapPossible_eq, hindex]
          exact (setupMmapArr_fits hhint.2).1
        have hor : has flags mapFixed = true ∨ (t.checkMmapPossible addr length).1 ≠ -1 :=
          .inr (by omega)
        rw [if_pos hor, if_pos hor, hchecked, if_neg (by omega), inRange_cons]
        refine iff_of_true ⟨⟨hpos, inRange_nil⟩, by omega, inRange_nil⟩ ?_
        exact fun _ => ⟨hpos, fun _ hno => absurd hhint hno⟩
      · rw [checkMmapPossible_of_not_takes hhint]
        by_cases hfixed : has flags mapFixed = true
        · have hor : has flags mapFixed = true ∨ (-1 : Int) ≠ -1 := .inl hfixed
          rw [if_pos hor, if_pos hor, if_pos rfl]
          refine iff_of_true ⟨⟨hpos, inRange_nil⟩, inRange_nil⟩ ?_
          exact fun _ => ⟨hpos, fun hno => absurd hfixed hno⟩
        · have hor : ¬ (has flags mapFixed = true ∨ (-1 : Int) ≠ -1) :=
            fun hor => hor.elim hfixed (fun hne => hne rfl)
          rw [if_neg hor, if_neg hor, findIndices_inRange_iff (by rw [hintShift_total]; exact hpos)
            (by rw [hintShift_total]; exact hroom)]
          constructor
          · rintro ⟨⟨-, hall⟩, -⟩ _
            exact ⟨hpos, fun _ _ => hall⟩
          · intro hplaces
            have hall := (hplaces hreaches).2 hfixed hhint
            refine ⟨⟨hpos, hall⟩, ?_⟩
            split
            · exact inRange_nil
            next hfound =>
              obtain ⟨x, hx, hfits, hindex⟩ := findMmapAddr_index hfound
              have hlow := findPlace_mem hx
              have hlt := hall x hx hfits
              rw [hindex, inRange_cons]
              exact ⟨by omega, inRange_nil⟩
    · exact iff_of_false (fun h => hpos h.1.1) (fun h => hpos (h hreaches).1)
  · rw [ummapIndices_of_not_reaches hreaches]
    exact iff_of_true inRange_nil (fun h => absurd h hreaches)

/-! ## Removing a mapping -/

theorem scanIndices_inRange {mainaddr : Int} (hi : 0 ≤ i) (hn : i + n ≤ 32) :
    InRange (t.scanIndices mainaddr n i) := by
  induction n generalizing i with
  | zero => exact inRange_nil
  | succ n ih =>
    rw [scanIndices, inRange_cons]
    refine ⟨by omega, ?_⟩
    split
    · exact inRange_nil
    · exact ih (by omega) (by omega)

/-- The left shift stays in the array if an entry without an address stops it. -/
theorem closeIndices_inRange_iff (hi : 0 ≤ i) (hlt : i < 32) (hn : i + n = 32) :
    InRange (t.closeIndices n i) ↔ ∃ j, i < j ∧ j ≤ 31 ∧ (t.vmas j).addr = 0 := by
  induction n generalizing i with
  | zero => omega
  | succ n ih =>
    rw [closeIndices, inRange_cons]
    by_cases hlast : i = 31
    · refine iff_of_false ?_ ?_
      · rintro ⟨⟨-, hle⟩, -⟩
        omega
      · rintro ⟨j, hij, hj, -⟩
        omega
    · by_cases hused : (t.vmas (i + 1)).addr ≠ 0
      · rw [if_pos hused, inRange_cons, ih (by omega) (by omega) (by omega)]
        constructor
        · rintro ⟨-, -, j, hij, hj, hzero⟩
          exact ⟨j, by omega, hj, hzero⟩
        · rintro ⟨j, hij, hj, hzero⟩
          have hne : j ≠ i + 1 := by
            rintro rfl
            exact hused hzero
          exact ⟨by omega, by omega, j, by omega, hj, hzero⟩
      · rw [if_neg hused]
        refine iff_of_true ⟨by omega, inRange_nil⟩ ⟨i + 1, by omega, by omega, not_not.mp hused⟩

/-- `umunmap` stays inside the array if and only if an entry without an address stops its left
shift. -/
theorem umunmapIndices_inRange_iff (filewrite : Int) :
    InRange (t.umunmapIndices addr length filewrite) ↔ t.ClosesInRange addr length filewrite := by
  unfold umunmapIndices
  simp only
  rw [inRange_append]
  have hscan : InRange (t.scanIndices (u32 (pgroundup addr)) 32 0) :=
    scanIndices_inRange (Int.le_refl 0) (by decide)
  cases hfind : t.findVma (u32 (pgroundup addr)) with
  | none =>
    refine iff_of_true ⟨hscan, inRange_nil⟩ ?_
    intro i removes
    have hfound := removes.found
    rw [hfind] at hfound
    cases hfound
  | some i =>
    obtain ⟨h0, hlt, -⟩ := findFrom_eq_some hfind
    have hnot (hstays : ∀ j, t.Removes addr length filewrite j → False) :
        t.ClosesInRange addr length filewrite := fun j removes => (hstays j removes).elim
    have hsame {j : Int} (removes : t.Removes addr length filewrite j) : j = i := by
      have hfound := removes.found
      rw [hfind] at hfound
      cases hfound
      rfl
    simp only
    by_cases hlen : (t.vmas i).len = 0
    · rw [if_pos hlen]
      refine iff_of_true ⟨hscan, inRange_nil⟩ (hnot ?_)
      intro j removes
      exact (hsame removes ▸ removes.nonempty) hlen
    · rw [if_neg hlen, inRange_cons]
      by_cases hwrite : has (t.vmas i).flags mapShared ∧ ¬ has (t.vmas i).flags mapAnonymous ∧
          has (t.vmas i).prot protWrite ∧ filewrite < 0
      · rw [if_pos hwrite]
        refine iff_of_true ⟨hscan, by omega, inRange_nil⟩ (hnot ?_)
        intro j removes
        exact (hsame removes ▸ removes.written) hwrite
      · rw [if_neg hwrite]
        by_cases hall : (t.vmas i).len ≤ pgroundup length
        · rw [if_pos hall, closeIndices_inRange_iff h0 (by omega) (by omega)]
          constructor
          · rintro ⟨-, -, hstops⟩ j removes
            rw [hsame removes]
            exact hstops
          · intro hcloses
            exact ⟨hscan, by omega, hcloses i ⟨hfind, hlen, hwrite, hall⟩⟩
        · rw [if_neg hall]
          refine iff_of_true ⟨hscan, by omega, inRange_nil⟩ (hnot ?_)
          intro j removes
          exact hall (hsame removes ▸ removes.whole)

/-! ## Page faults -/

theorem coverIndices_inRange {faultAddr : Int} (hi : 0 ≤ i) (hn : i + n ≤ 32) :
    InRange (t.coverIndices faultAddr n i) := by
  induction n generalizing i with
  | zero => exact inRange_nil
  | succ n ih =>
    rw [coverIndices, inRange_cons]
    refine ⟨by omega, ?_⟩
    split
    · exact inRange_nil
    · exact ih (by omega) (by omega)

theorem pgftIndices_inRange (hroom : t.totalVmas ≤ 32) (faultAddr : Int) :
    InRange (t.pgftIndices faultAddr) := by
  unfold pgftIndices
  split
  · exact inRange_nil
  · rw [inRange_append]
    refine ⟨coverIndices_inRange (Int.le_refl 0) (by omega), ?_⟩
    split
    · exact inRange_nil
    · split
      · rw [inRange_cons]
        refine ⟨by decide, ?_⟩
        split
        · rw [inRange_cons]
          exact ⟨by decide, inRange_nil⟩
        · exact inRange_nil
      · exact inRange_nil

/-! ## Copying and clearing a table -/

theorem copyIndices_inRange {n : Int} (hn : n ≤ 32) : InRange (copyIndices n) := by
  intro i hi
  obtain ⟨k, hk, rfl⟩ := List.mem_map.mp hi
  have := List.mem_range.mp hk
  omega

/-- `umunmap` takes at most one entry away and adds none. -/
theorem umunmap_total (t : Table) (addr length filewrite : Int) :
    t.totalVmas - 1 ≤ (t.umunmap addr length filewrite).2.1.totalVmas ∧
      (t.umunmap addr length filewrite).2.1.totalVmas ≤ t.totalVmas := by
  cases t.umunmap_cases addr length filewrite with
  | failed eq none =>
    rw [eq]
    exact ⟨Int.sub_le_self _ (by decide), Int.le_refl _⟩
  | removed i removes eq =>
    rw [eq]
    exact ⟨Int.le_refl _, Int.sub_le_self _ (by decide)⟩
  | shortened i finds part eq =>
    rw [eq]
    exact ⟨Int.sub_le_self _ (by decide), Int.le_refl _⟩

/-- The rounds of `clear_maps` find an entry, and stay in the array where `umunmap` does. -/
theorem clearIndices_inRange_iff (filewrite : Nat → Int) (hroom : t.totalVmas ≤ 32)
    (hn : n ≤ t.totalVmas) :
    InRange (clearIndices filewrite n t) ↔ ClearsInRange filewrite n t := by
  induction n generalizing t with
  | zero => exact iff_of_true inRange_nil trivial
  | succ n ih =>
    have hlast : 0 ≤ t.totalVmas - 1 ∧ t.totalVmas - 1 ≤ 31 := by omega
    rw [clearIndices, ClearsInRange, inRange_cons]
    by_cases hcount : (t.vmas (t.totalVmas - 1)).refCount = 0
    · obtain ⟨hlow, hle⟩ := t.umunmap_total (t.vmas (t.totalVmas - 1)).addr
        (t.vmas (t.totalVmas - 1)).len (filewrite n)
      rw [if_pos hcount, if_pos hcount, inRange_append, umunmapIndices_inRange_iff,
        ih (by omega) (by omega)]
      exact ⟨And.right, fun h => ⟨hlast, h⟩⟩
    · rw [if_neg hcount, if_neg hcount, ih hroom (by omega)]
      exact ⟨And.right, fun h => ⟨hlast, h⟩⟩

/-- A call stays inside the array exactly if the condition says so. -/
theorem indices_inRange_iff (hroom : t.totalVmas ≤ 32) (c : Call) :
    InRange (t.indices c) ↔ t.StaysInRange c := by
  cases c with
  | ummap addr length prot flags offset file => exact ummapIndices_inRange_iff
  | umunmap addr length filewrite => exact umunmapIndices_inRange_iff filewrite
  | pgft faultAddr present => exact iff_of_true (pgftIndices_inRange hroom _) trivial
  | ofile below => exact iff_of_true inRange_nil trivial
  | neighbour above => exact iff_of_true inRange_nil trivial

/-! ## Runs -/

/-- No call makes a table longer than the array. -/
theorem next_total_le (hroom : t.totalVmas ≤ 32) (c : Call) : (t.next c).totalVmas ≤ 32 := by
  cases c with
  | ummap addr length prot flags offset file =>
    have htotal := chooseEntry_total t (i32 addr) (i32 length) flags
    show (t.ummap (i32 addr) (i32 length) prot flags offset file).2.totalVmas ≤ 32
    unfold ummap
    simp only
    split
    · exact hroom
    · split
      · exact hroom
      · split
        · exact Int.le_trans (Int.le_of_eq htotal) hroom
        · simp only [fillEntry, totalVmas_set]
          omega
  | umunmap addr length filewrite =>
    exact Int.le_trans (t.umunmap_total (i32 addr) (i32 length) filewrite).2 hroom
  | pgft faultAddr present =>
    exact Int.le_trans (Int.le_of_eq (pgftHandler_files t (u32 faultAddr) present).1) hroom
  | ofile below => exact hroom
  | neighbour above => exact hroom

end Table

namespace ProcEvent

/-- The indices that an event uses. -/
def indices (k : Fin 64 → Table) : ProcEvent → List Int
  | .call p c => (k p).indices c
  | .fork p _ => Table.copyIndices (k p).totalVmas
  | .failedFork p _ n => Table.copyIndices (min (n + 1) (k p).totalVmas)
  | .exit p filewrite => (k p).clearIndices filewrite (k p).totalVmas.toNat

/-- An event that stays inside the array. -/
def StaysInRange (k : Fin 64 → Table) : ProcEvent → Prop
  | .call p c => (k p).StaysInRange c
  | .fork .. | .failedFork .. => True
  | .exit p filewrite => (k p).ClearsInRange filewrite (k p).totalVmas.toNat

variable {k k₀ k' : Fin 64 → Table} {e : ProcEvent}

theorem step_total_le (hroom : ∀ p, (k p).totalVmas ≤ 32) (hstep : step k e = some k')
    (r : Fin 64) : (k' r).totalVmas ≤ 32 := by
  have hupdate (q : Fin 64) {u : Table} (hu : u.totalVmas ≤ 32) :
      (Function.update k q u r).totalVmas ≤ 32 := by
    by_cases hr : r = q
    · rw [hr, Function.update_self]
      exact hu
    · rw [Function.update_of_ne hr]
      exact hroom r
  cases e with
  | call p c =>
    cases hstep
    exact hupdate p (Table.next_total_le (hroom p) c)
  | fork p q =>
    cases hstep
    exact hupdate q (hroom p)
  | failedFork p q n =>
    cases hstep
    exact hupdate q (by decide : (0 : Int) ≤ 32)
  | exit p filewrite =>
    cases hstep
    exact hupdate p (by decide : (0 : Int) ≤ 32)

/-- In every state that a run from empty tables reaches, an event uses indices of the array only if
and only if the condition on the tables holds. -/
theorem vma_indices_inRange_iff {es : List ProcEvent} (hempty : ∀ p, (k₀ p).Empty)
    (run : Run (stepOf step) k₀ es k) (e : ProcEvent) :
    InRange (e.indices k) ↔ e.StaysInRange k := by
  have hroom : ∀ p, (k p).totalVmas ≤ 32 := by
    apply run.invariant (fun (k : Fin 64 → Table) => ∀ p, (k p).totalVmas ≤ 32)
    · intro p
      rw [(hempty p).total]
      decide
    · intro k₁ e k₂ hroom hstep r
      exact step_total_le hroom hstep r
  cases e with
  | call p c => exact Table.indices_inRange_iff (hroom p) c
  | fork p q => exact iff_of_true (Table.copyIndices_inRange (hroom p)) trivial
  | failedFork p q n =>
    have := hroom p
    exact iff_of_true (Table.copyIndices_inRange (by omega)) trivial
  | exit p filewrite =>
    by_cases hneg : (k p).totalVmas < 0
    · have hzero : (k p).totalVmas.toNat = 0 := by omega
      show InRange (Table.clearIndices filewrite (k p).totalVmas.toNat (k p)) ↔
        Table.ClearsInRange filewrite (k p).totalVmas.toNat (k p)
      rw [hzero]
      exact iff_of_true inRange_nil trivial
    · exact Table.clearIndices_inRange_iff filewrite (hroom p) (by omega)

/-- The theorem at the second page that a process maps. -/
theorem vma_indices_inRange_iff_second_page :
    InRange ((ProcEvent.call 0 Table.mapPage).indices
      (Function.update boot 0 (Table.freshTable.next Table.mapPage))) := by
  have hrun : Run (stepOf step) boot [.call 0 Table.mapPage]
      (Function.update boot 0 (Table.freshTable.next Table.mapPage)) := Run.nil.snoc rfl
  refine (vma_indices_inRange_iff (fun _ => Table.freshTable_empty) hrun _).mpr ?_
  intro _
  have hself : Function.update boot 0 (Table.freshTable.next Table.mapPage) 0 =
      Table.freshTable.next Table.mapPage := Function.update_self _ _ _
  have hindex : (Table.freshTable.next Table.mapPage).checkIndex (i32 0) (i32 4096) = none := by
    decide +kernel
  rw [hself]
  refine ⟨by decide +kernel, ?_⟩
  intro _ _ x hx _
  unfold Table.hintShift at hx
  rw [hindex, Option.elim_none] at hx
  have hplace : (Table.freshTable.next Table.mapPage).findPlace (i32 4096) =
      some (0, mmapBase + 4096) := by decide +kernel
  rw [hplace] at hx
  cases hx
  show (0 : Int) < 31
  decide

/-- The first page that a process maps: `check_mmap_possible` looks at `vmas[-1]`. -/
theorem first_mapping_uses_index_before_array :
    ¬ ∀ (k₀ k : Fin 64 → Table) (es : List ProcEvent) (e : ProcEvent), (∀ p, (k₀ p).Empty) →
      Run (stepOf step) k₀ es k → InRange (e.indices k) := by
  intro hall
  have hrange := hall boot boot [] (.call 0 Table.mapPage) (fun _ => Table.freshTable_empty) .nil
  have hbefore : (-1 : Int) ∈ (ProcEvent.call 0 Table.mapPage).indices boot := by decide +kernel
  exact absurd (hrange _ hbefore).1 (by decide)

end ProcEvent

end Cs537.P5
