import Cs537.P5.LiveFiles

/-!
# What `ummap` adds to the live mappings

A mapping that `ummap` grants is one more entry among the live ones, unless one of two things
happens on the way to it. `check_mmap_possible` may have found a gap for a range that ends at
`KERNBASE`: then `setup_mmap_arr` moves the entries behind the gap before it gives up, and the last
one is pushed out of the live part. And the loop of `find_mmap_addr` may have gone on to the first
entry that is not live, because an earlier `umunmap` left something there: then that entry becomes
live and the new one does not.
-/

namespace Cs537.P5

open Cs537.Lib

namespace Table

variable {t u : Table} {addr length : Int} {prot flags : UInt32} {offset : Int} {file : UInt32}

/-- The live mappings, in order. -/
def liveAreas (t : Table) : List Area := entries (fun i => (t.vmas i).toArea) t.totalVmas

/-- The entry that a call of `ummap` is to make at address `a`. -/
def newArea (a length : Int) (prot flags : UInt32) (offset : Int) (file : UInt32) : Area where
  addr := a
  len := length
  prot := pteU ||| prot
  flags := flags
  file := file
  offset := offset

/-- A call that returns an address adds one live entry, and nothing else changes among them. -/
def AddsOne (t : Table) (addr length : Int) (prot flags : UInt32) (offset : Int) (file : UInt32) :
    Prop :=
  let r := t.ummap addr length prot flags offset file
  r.1 ≠ -1 → r.2.totalVmas = t.totalVmas + 1 ∧
    r.2.liveAreas.Perm (newArea r.1 length prot flags offset file :: t.liveAreas)

/-- The search of `find_mmap_addr` goes past all live entries: there is no room before the first
one and behind none of them, and the slot behind the last one has an address. -/
structure Passes (t : Table) (size : Int) : Prop where
  nonempty : t.totalVmas ≠ 0
  front : ¬ size < i32 ((t.vmas 0).addr - mmapBase)
  behind : ∀ j, 0 ≤ j → j < t.totalVmas → (t.vmas (j + 1)).addr ≠ 0 ∧ ¬ t.wide size j

/-- A call that takes no hint and finds another place: the search for it does not go past all live
entries, and if entries were moved for the hint in vain, the one behind the gap is like the last
one. -/
def Clean (t : Table) (addr length : Int) (flags : UInt32) : Prop :=
  let checked := (t.checkMmapPossible addr length).2
  t.Reaches addr length flags → ¬ has flags mapFixed → ¬ t.TakesHint addr length →
    (∃ x ∈ checked.findPlace length, Fits length x.2) →
      ¬ checked.Passes length ∧ ∀ i ∈ t.checkIndex addr length, i + 1 < t.totalVmas →
        (t.vmas (i + 1)).toArea = (t.vmas (t.totalVmas - 1)).toArea

/-! ## Lists of entries -/

theorem perm_cons_iff {α : Type*} [DecidableEq α] {a b : α} {l : List α} :
    (a :: l).Perm (b :: l) ↔ a = b := by
  constructor
  · intro h
    by_contra hne
    have hcount := h.count_eq a
    rw [List.count_cons_self, List.count_cons_of_ne (fun h => hne h.symm)] at hcount
    omega
  · rintro rfl
    exact List.Perm.refl _

/-- One more entry. -/
theorem entries_succ_perm {α : Type*} (f : Int → α) {n : Int} (h0 : 0 ≤ n) :
    (entries f (n + 1)).Perm (f n :: entries f n) := by
  have h := entries_removeAt_perm (f := f) (n := n + 1) h0 (by omega)
  rw [show n + 1 - 1 = n by omega] at h
  refine h.trans (List.Perm.cons _ (List.Perm.of_eq (entries_congr ?_)))
  intro i _ hi
  unfold removeAt
  rw [if_pos hi]

/-! ## The attempts -/

/-- `setup_mmap_arr` moves the entries above `i` whether it succeeds or not. -/
theorem setupMmapArr_area (t : Table) (size i a : Int) :
    (t.setupMmapArr size i a).2.totalVmas = t.totalVmas ∧
      ∀ j, j ≠ i + 1 → ((t.setupMmapArr size i a).2.vmas j).toArea =
        if i + 1 < j ∧ j ≤ t.totalVmas then (t.vmas (j - 1)).toArea else (t.vmas j).toArea := by
  have hshift (j : Int) :
      (shiftUp copyMmapStruct t.vmas (t.totalVmas - (i + 1)).toNat t.totalVmas j).toArea =
        if i + 1 < j ∧ j ≤ t.totalVmas then (t.vmas (j - 1)).toArea else (t.vmas j).toArea := by
    rw [shiftUp_apply]
    by_cases hin : i + 1 < j ∧ j ≤ t.totalVmas
    · rw [if_pos hin, if_pos (by omega)]
      rfl
    · rw [if_neg hin, if_neg (by omega)]
  unfold setupMmapArr
  simp only
  split
  · exact ⟨rfl, fun j _ => hshift j⟩
  · refine ⟨rfl, ?_⟩
    intro j hj
    simp only [set, Function.update_of_ne hj]
    exact hshift j

/-- Filling an entry that `setup_mmap_arr` made: at index `i + 1` stands the new mapping, the
others have made room for it. -/
theorem fillEntry_area (prot flags : UInt32) (offset : Int) (file : UInt32)
    {size i a : Int} (hfits : Fits size a) :
    let r := t.setupMmapArr size i a
    let s := r.2.fillEntry r.1 prot flags offset file
    s.1 = a ∧ s.2.totalVmas = t.totalVmas + 1 ∧
      ∀ j, (s.2.vmas j).toArea = if j = i + 1 then newArea a size prot flags offset file
        else if i + 1 < j ∧ j ≤ t.totalVmas then (t.vmas (j - 1)).toArea
        else (t.vmas j).toArea := by
  have hindex := (setupMmapArr_fits (t := t) (i := i) hfits).1
  obtain ⟨htotal, harea⟩ := setupMmapArr_area t size i a
  have hspan := (setupMmapArr_of_lt (t := t) (i := i) hfits).2.2 (i + 1)
  rw [if_pos rfl] at hspan
  have haddr : ((t.setupMmapArr size i a).2.vmas (i + 1)).addr = a := congrArg Span.addr hspan
  have hlen : ((t.setupMmapArr size i a).2.vmas (i + 1)).len = size := congrArg Span.len hspan
  simp only [fillEntry, set, hindex, htotal, Function.update_self]
  refine ⟨haddr, trivial, ?_⟩
  intro j
  by_cases hj : j = i + 1
  · rw [if_pos hj, hj, Function.update_self]
    simp only [haddr, hlen, newArea]
  · rw [if_neg hj, Function.update_of_ne hj]
    exact harea j hj

/-- A mapping that was put behind a live entry is one more live entry. -/
theorem fillEntry_perm (prot flags : UInt32) (offset : Int) (file : UInt32)
    {size i a : Int} (hlow : -1 ≤ i) (hlive : i < t.totalVmas)
    (hfits : Fits size a) :
    let r := t.setupMmapArr size i a
    (r.2.fillEntry r.1 prot flags offset file).2.liveAreas.Perm
      (newArea a size prot flags offset file :: t.liveAreas) := by
  obtain ⟨-, htotal, harea⟩ := fillEntry_area (t := t) (i := i) prot flags offset file hfits
  simp only at htotal harea ⊢
  unfold liveAreas
  rw [htotal]
  refine (List.Perm.of_eq (entries_congr ?_)).trans
    (entries_insertAt_perm (f := fun i => (t.vmas i).toArea) (k := i + 1) _ (by omega) (by omega))
  intro j _ hj
  rw [harea]
  unfold insertAt
  by_cases hji : j = i + 1
  · rw [if_pos hji, if_neg (by omega), if_pos hji]
  · rw [if_neg hji]
    by_cases hlt : j < i + 1
    · rw [if_neg (by omega), if_pos hlt]
    · rw [if_pos (by omega), if_neg hlt, if_neg hji]

/-- A mapping that was put behind the first entry that is not live makes that entry live. -/
theorem fillEntry_behind_perm (prot flags : UInt32) (offset : Int) (file : UInt32)
    {size a : Int} (h0 : 0 ≤ t.totalVmas) (hfits : Fits size a) :
    let r := t.setupMmapArr size t.totalVmas a
    (r.2.fillEntry r.1 prot flags offset file).2.liveAreas.Perm
      ((t.vmas t.totalVmas).toArea :: t.liveAreas) := by
  obtain ⟨-, htotal, harea⟩ := fillEntry_area (t := t) (i := t.totalVmas) prot flags offset file hfits
  simp only at htotal harea ⊢
  unfold liveAreas
  rw [htotal]
  refine (List.Perm.of_eq (entries_congr ?_)).trans
    (entries_succ_perm (fun i => (t.vmas i).toArea) h0)
  intro j _ hj
  rw [harea, if_neg (by omega), if_neg (by omega)]

/-- What is left of the table when the hint is not taken: the entries behind a gap may have moved
by one, so that the one behind the gap is there twice. -/
inductive Moved (t u : Table) (addr length : Int) : Prop
  | none (same : u = t) (last : ∀ i ∈ t.checkIndex addr length, t.totalVmas ≤ i + 1)
  | up (i : Int) (index : t.checkIndex addr length = some i) (nonneg : 0 ≤ i)
      (lt : i + 1 < t.totalVmas) (total : u.totalVmas = t.totalVmas)
      (area : ∀ j, (u.vmas j).toArea = if i + 1 < j ∧ j ≤ t.totalVmas then (t.vmas (j - 1)).toArea
        else (t.vmas j).toArea)

theorem checkMmapPossible_moved (h0 : 0 ≤ t.totalVmas) (hhint : ¬ t.TakesHint addr length) :
    (t.checkMmapPossible addr length).1 = -1 ∧
      Moved t (t.checkMmapPossible addr length).2 addr length := by
  rw [checkMmapPossible_eq]
  cases hindex : t.checkIndex addr length with
  | none =>
    refine ⟨rfl, .none rfl ?_⟩
    intro i hi
    rw [hindex] at hi
    cases hi
  | some i =>
    have hfits : ¬ Fits length (pgroundup addr) :=
      fun hfits => hhint ⟨by rw [hindex]; rfl, hfits⟩
    unfold Fits at hfits
    simp only
    by_cases hlast : t.totalVmas ≤ i + 1
    · rw [setupMmapArr_of_last hlast (by omega)]
      refine ⟨rfl, .none rfl ?_⟩
      intro j hj
      rw [hindex] at hj
      cases hj
      exact hlast
    · obtain ⟨hlow, -⟩ := checkIndex_mem h0 hindex
      have hnonneg : 0 ≤ i := by
        by_contra hneg
        unfold checkIndex at hindex
        split at hindex
        · cases hindex
          omega
        · have := gapIndex_mem hindex
          omega
      rw [setupMmapArr_of_ge (by omega)]
      refine ⟨rfl, .up i hindex hnonneg (by omega) rfl ?_⟩
      intro j
      simp only [shiftUp_apply]
      by_cases hin : i + 1 < j ∧ j ≤ t.totalVmas
      · rw [if_pos hin, if_pos (by omega)]
        rfl
      · rw [if_neg hin, if_neg (by omega)]

/-- What reaches the search with `MAP_FIXED` is not turned down before. -/
theorem Reaches.not_low (h : t.Reaches addr length flags) (hfixed : has flags mapFixed = true) :
    ¬ (addr = 0 ∨ addr < mmapBase ∨
      kernBase < u32 (pgroundup (i32 (pgroundup addr + length)))) := by
  have hbelow := h.below
  have hbase := h.fixed hfixed
  omega

theorem Reaches.not_past (h : t.Reaches addr length flags) :
    ¬ (kernBase < u32 (pgroundup (i32 (pgroundup addr + length))) ∨
      pgroundup (i32 (pgroundup addr + length)) % pgsize ≠ 0) := by
  have hbelow := h.below
  have haligned := Int.emod_eq_zero_of_dvd (dvd_pgroundup (i32 (pgroundup addr + length)))
  omega

/-- What does not reach the search, in a table with room, is turned down because of its range. -/
theorem low_of_not_reaches (h : ¬ t.Reaches addr length flags) (hroom : ¬ 32 ≤ t.totalVmas)
    (hkind : ¬ (¬ has flags mapPrivate ∧ ¬ has flags mapShared)) :
    (addr = 0 ∨ addr < mmapBase ∨
      kernBase < u32 (pgroundup (i32 (pgroundup addr + length)))) ∧
    (has flags mapFixed = true ∨
      kernBase < u32 (pgroundup (i32 (pgroundup addr + length)))) := by
  by_cases hhigh : kernBase < u32 (pgroundup (i32 (pgroundup addr + length)))
  · exact ⟨.inr (.inr hhigh), .inr hhigh⟩
  · by_cases hfixed : has flags mapFixed = true
    · refine ⟨?_, .inl hfixed⟩
      by_contra hlow
      exact h ⟨by omega, by tauto, by omega, fun _ => by omega⟩
    · exact absurd ⟨by omega, by tauto, by omega, fun hf => absurd hf hfixed⟩ h

theorem chooseEntry_of_low (hlow : addr = 0 ∨ addr < mmapBase ∨
      kernBase < u32 (pgroundup (i32 (pgroundup addr + length))))
    (hor : has flags mapFixed = true ∨
      kernBase < u32 (pgroundup (i32 (pgroundup addr + length)))) :
    t.chooseEntry addr length flags = (-1, t) := by
  unfold chooseEntry
  simp only
  by_cases hfixed : has flags mapFixed = true
  · rw [if_pos hfixed, if_pos hlow]
  · rw [if_neg hfixed, if_pos (hor.resolve_left hfixed)]

/-- `ummap` fails if a check before the search does. -/
theorem ummap_of_not_reaches (prot : UInt32) (offset : Int) (file : UInt32)
    (h : ¬ t.Reaches addr length flags) :
    t.ummap addr length prot flags offset file = (-1, t) := by
  unfold ummap
  by_cases hfull : 32 ≤ t.totalVmas
  · rw [if_pos hfull]
  · rw [if_neg hfull]
    by_cases hkind : ¬ has flags mapPrivate ∧ ¬ has flags mapShared
    · rw [if_pos hkind]
    · rw [if_neg hkind]
      obtain ⟨hlow, hor⟩ := low_of_not_reaches h hfull hkind
      rw [chooseEntry_of_low hlow hor, if_pos rfl]

/-- The choice of the entry after the checks, in terms of the two searches. -/
theorem Reaches.chooseEntry_eq (h : t.Reaches addr length flags) :
    t.chooseEntry addr length flags =
      if has flags mapFixed = true ∨ (t.checkMmapPossible addr length).1 ≠ -1 then
        t.checkMmapPossible addr length
      else (t.checkMmapPossible addr length).2.findMmapAddr length := by
  have hbelow := h.below
  unfold chooseEntry
  simp only
  by_cases hfixed : has flags mapFixed = true
  · rw [if_pos hfixed, if_neg (h.not_low hfixed), if_neg h.not_past, if_pos (.inl hfixed)]
  · rw [if_neg hfixed, if_neg (by omega)]
    by_cases hfound : (t.checkMmapPossible addr length).1 ≠ -1
    · rw [if_pos hfound, if_pos (.inr hfound)]
    · rw [if_neg hfound, if_neg (fun hor => hor.elim hfixed hfound)]

theorem Reaches.ummap_eq (h : t.Reaches addr length flags) :
    t.ummap addr length prot flags offset file =
      let placed := t.chooseEntry addr length flags
      if placed.1 = -1 then (-1, placed.2) else placed.2.fillEntry placed.1 prot flags offset file := by
  have hroom := h.room
  have hkind := h.kind
  unfold ummap
  rw [if_neg (by omega), if_neg (by tauto)]

/-- An entry that was chosen where the mapping fits is filled. -/
theorem Reaches.ummap_fits (h : t.Reaches addr length flags) {u : Table} {i a : Int} (hi : -1 ≤ i)
    (hchoose : t.chooseEntry addr length flags = u.setupMmapArr length i a) (hfits : Fits length a) :
    t.ummap addr length prot flags offset file =
      let r := u.setupMmapArr length i a
      r.2.fillEntry r.1 prot flags offset file := by
  have hresult := (setupMmapArr_fits (t := u) (i := i) hfits).1
  rw [h.ummap_eq, hchoose]
  simp only
  rw [if_neg (by omega)]

/-- A hint that is taken. -/
theorem TakesHint.ummap_eq (hhint : t.TakesHint addr length) (prot : UInt32) (offset : Int)
    (file : UInt32) (h : t.Reaches addr length flags) (h0 : 0 ≤ t.totalVmas) :
    ∃ i, -1 ≤ i ∧ i < t.totalVmas ∧ t.ummap addr length prot flags offset file =
      let r := t.setupMmapArr length i (pgroundup addr)
      r.2.fillEntry r.1 prot flags offset file := by
  obtain ⟨hsome, hfits⟩ := hhint
  obtain ⟨i, hindex⟩ := Option.isSome_iff_exists.mp hsome
  obtain ⟨hlow, hlive⟩ := checkIndex_mem h0 hindex
  have hchecked : t.checkMmapPossible addr length = t.setupMmapArr length i (pgroundup addr) := by
    rw [checkMmapPossible_eq, hindex]
  have hresult := (setupMmapArr_fits (t := t) (i := i) hfits).1
  refine ⟨i, hlow, hlive, h.ummap_fits hlow ?_ hfits⟩
  rw [h.chooseEntry_eq, hchecked, if_pos (.inr (by omega))]

/-- A place that is found elsewhere. -/
theorem Reaches.ummap_found (h : t.Reaches addr length flags) (prot : UInt32) (offset : Int)
    (file : UInt32) (h0 : 0 ≤ t.totalVmas)
    (hfixed : ¬ has flags mapFixed) (hhint : ¬ t.TakesHint addr length) {x : Int × Int}
    (hx : (t.checkMmapPossible addr length).2.findPlace length = some x) (hfits : Fits length x.2) :
    t.ummap addr length prot flags offset file =
      let r := (t.checkMmapPossible addr length).2.setupMmapArr length x.1 x.2
      r.2.fillEntry r.1 prot flags offset file := by
  obtain ⟨hfail, -⟩ := checkMmapPossible_moved h0 hhint
  refine h.ummap_fits (findPlace_mem hx) ?_ hfits
  rw [h.chooseEntry_eq, if_neg (fun hor => hor.elim hfixed (fun hne => hne hfail)),
    findMmapAddr_eq, hx]

/-- No place at all. -/
theorem Reaches.ummap_none (h : t.Reaches addr length flags) (h0 : 0 ≤ t.totalVmas)
    (hhint : ¬ t.TakesHint addr length)
    (hnone : has flags mapFixed = true ∨ ∀ x ∈ (t.checkMmapPossible addr length).2.findPlace length,
      ¬ Fits length x.2) :
    (t.ummap addr length prot flags offset file).1 = -1 := by
  obtain ⟨hfail, -⟩ := checkMmapPossible_moved h0 hhint
  have hchoose : (t.chooseEntry addr length flags).1 = -1 := by
    rw [h.chooseEntry_eq]
    by_cases hfixed : has flags mapFixed = true
    · rw [if_pos (.inl hfixed)]
      exact hfail
    · rw [if_neg (fun hor => hor.elim hfixed (fun hne => hne hfail)), findMmapAddr_eq]
      cases hplace : (t.checkMmapPossible addr length).2.findPlace length with
      | none => rfl
      | some x =>
        have hfits := (hnone.resolve_left hfixed) x hplace
        unfold Fits at hfits
        simp only
        rw [setupMmapArr_of_ge (by omega)]
  rw [h.ummap_eq]
  simp only
  rw [if_pos hchoose]

/-! ## Behind the live entries -/

/-- `find_mmap_addr` asks for a place behind a live entry, or has passed all of them. -/
theorem findPlace_behind {size : Int} {x : Int × Int} (h0 : 0 ≤ u.totalVmas)
    (hx : u.findPlace size = some x) :
    x.1 < u.totalVmas ∧ ¬ u.Passes size ∨
      x.1 = u.totalVmas ∧ x.2 = u.endOf u.totalVmas ∧ u.Passes size := by
  unfold findPlace at hx
  by_cases hzero : u.totalVmas = 0
  · rw [if_pos hzero] at hx
    cases hx
    left
    refine ⟨?_, fun hpasses => hpasses.nonempty hzero⟩
    show -1 < u.totalVmas
    omega
  · rw [if_neg hzero] at hx
    by_cases hfront : size < i32 ((u.vmas 0).addr - mmapBase)
    · rw [if_pos hfront] at hx
      cases hx
      left
      refine ⟨?_, fun hpasses => hpasses.front hfront⟩
      show -1 < u.totalVmas
      omega
    · rw [if_neg hfront] at hx
      simp only at hx
      split at hx
      · cases hx
      · cases hx
        obtain ⟨hlow, hle, hpassed, hstop⟩ := u.findGap_spec size u.totalVmas.toNat 0
        simp only
        rcases Int.lt_or_eq_of_le hle with hlt | heq
        · left
          refine ⟨by omega, ?_⟩
          intro hpasses
          obtain ⟨hused, hnarrow⟩ := hpasses.behind _ hlow (by omega)
          exact (hstop hlt).elim hused hnarrow
        · right
          have hend : u.findGap size u.totalVmas.toNat 0 = u.totalVmas := by omega
          rw [hend] at hpassed ⊢
          refine ⟨rfl, ?_, hzero, hfront, hpassed⟩
          have := endOf_mem u u.totalVmas
          unfold i32 u32
          omega

/-- The address that `find_mmap_addr` chooses. -/
theorem findPlace_addr {size : Int} {x : Int × Int} (hx : u.findPlace size = some x) :
    pgsize ∣ x.2 ∧ -2 ^ 31 ≤ x.2 ∧ x.2 < 2 ^ 31 := by
  have hbase : pgsize ∣ mmapBase ∧ -2 ^ 31 ≤ mmapBase ∧ mmapBase < 2 ^ 31 := by decide
  unfold findPlace at hx
  split at hx
  · cases hx
    exact hbase
  · split at hx
    · cases hx
      exact hbase
    · simp only at hx
      split at hx
      · cases hx
      · cases hx
        obtain ⟨hlo, hhi⟩ := endOf_mem u (u.findGap size u.totalVmas.toNat 0)
        have hsame : i32 (u32 (u.endOf (u.findGap size u.totalVmas.toNat 0))) =
            u.endOf (u.findGap size u.totalVmas.toNat 0) := by
          unfold u32 i32
          omega
        simp only [hsame]
        exact ⟨dvd_pgroundup _, hlo, hhi⟩

/-- `ummap` where no attempt moves entries in vain: it fails and changes nothing, or puts the new
entry behind a live one. -/
theorem ummap_tidy (prot : UInt32) (offset : Int) (file : UInt32) (h0 : 0 ≤ t.totalVmas)
    (htidy : t.Reaches addr length flags → t.Tidy addr length flags) :
    t.ummap addr length prot flags offset file = (-1, t) ∨
      ∃ i a, t.Reaches addr length flags ∧ -1 ≤ i ∧ i < t.totalVmas ∧
        (pgsize ∣ a ∧ -2 ^ 31 ≤ a ∧ a < 2 ^ 31) ∧ Fits length a ∧
        t.ummap addr length prot flags offset file =
          let r := t.setupMmapArr length i a
          r.2.fillEntry r.1 prot flags offset file := by
  by_cases hreaches : t.Reaches addr length flags
  · have htidy := htidy hreaches
    by_cases hhint : t.TakesHint addr length
    · right
      obtain ⟨i, hlow, hlive, heq⟩ := hhint.ummap_eq prot offset file hreaches h0
      exact ⟨i, _, hreaches, hlow, hlive, ⟨dvd_pgroundup _, pgroundup_mem _⟩, hhint.2, heq⟩
    · rcases htidy.check_chosen h0 with ⟨hfail, -⟩ | ⟨-, htakes, -⟩
      · by_cases hplace : ¬ has flags mapFixed ∧ ∃ x ∈ t.findPlace length, Fits length x.2
        · right
          obtain ⟨hfixed, x, hx, hfits⟩ := hplace
          obtain ⟨hlive, -⟩ := htidy.find hfixed hhint x hx
          have hfound := hreaches.ummap_found prot offset file h0 hfixed hhint
            (by rw [hfail]; exact hx) hfits
          rw [hfail] at hfound
          exact ⟨x.1, x.2, hreaches, findPlace_mem hx, hlive, findPlace_addr hx, hfits, hfound⟩
        · left
          have hnone : t.chooseEntry addr length flags = (-1, t) := by
            rw [hreaches.chooseEntry_eq, hfail]
            by_cases hfixed : has flags mapFixed = true
            · rw [if_pos (.inl hfixed)]
            · rw [if_neg (fun hor => hor.elim hfixed (fun hne => hne rfl)), findMmapAddr_eq]
              cases hx : t.findPlace length with
              | none => rfl
              | some x =>
                rcases setupMmapArr_tidy (htidy.find hfixed hhint x hx).2 with ⟨hfail', -⟩ | hfits
                · exact hfail'
                · exact absurd ⟨hfixed, x, hx, hfits⟩ hplace
          rw [hreaches.ummap_eq, hnone]
          rfl
      · exact absurd htakes hhint
  · exact .inl (ummap_of_not_reaches prot offset file hreaches)

/-- A mapping of positive length does not begin where it ends, and if it is there twice, the gap
between the two looks huge. -/
theorem wide_of_twice {size a i : Int} (ha : pgsize ∣ a) (hlo : -2 ^ 31 ≤ a) (hhi : a < 2 ^ 31)
    (hpos : 0 < size) (hmax : size < 2 ^ 31) (haddr : (u.vmas i).addr = a)
    (hlen : (u.vmas i).len = size) :
    a ≠ u.endOf i ∧ ((u.vmas (i + 1)).addr = a → u.wide size i) := by
  have hend : u.endOf i = i32 (a + alignUp pgsize size) := by
    unfold endOf
    rw [haddr, hlen, pgroundup_i32]
    obtain ⟨c, rfl⟩ := ha
    unfold alignUp pgsize
    congr 1
    omega
  have hup := le_alignUp Span.pgsize_pos size
  have hle : alignUp pgsize size ≤ 2 ^ 31 := alignUp_le Span.pgsize_pos _ (by decide) (by omega)
  constructor
  · rw [hend]
    unfold i32
    omega
  · intro hnext
    unfold wide
    rw [hnext, pgroundup_of_dvd ha hlo hhi, hend]
    unfold u32 i32
    omega

/-- The first entries of a table whose entries behind a gap have moved: the one behind the gap is
there twice. -/
theorem entries_moved_perm {f g : Int → Area} {i m n : Int} (h0 : 0 ≤ i) (hi : i < m)
    (hm : m ≤ n) (hg : ∀ j, g j = if i + 1 < j ∧ j ≤ n then f (j - 1) else f j) :
    (entries g (m + 1)).Perm (f (i + 1) :: entries f m) := by
  refine (List.Perm.of_eq (entries_congr ?_)).trans
    (entries_insertAt_perm (f := f) (k := i + 1) (f (i + 1)) (by omega) (by omega))
  intro j _ hj
  rw [hg]
  unfold insertAt
  by_cases hji : j = i + 1
  · rw [if_neg (by omega), if_neg (by omega), if_pos hji, hji]
  · by_cases hlt : j < i + 1
    · rw [if_neg (by omega), if_pos hlt]
    · rw [if_pos (by omega), if_neg hlt, if_neg hji]

/-- Entries that were moved in vain. -/
theorem Moved.perm (hmoved : Moved t u addr length) (h0 : 0 ≤ t.totalVmas) :
    u.totalVmas = t.totalVmas ∧
      (u.liveAreas.Perm t.liveAreas ↔ ∀ i ∈ t.checkIndex addr length, i + 1 < t.totalVmas →
        (t.vmas (i + 1)).toArea = (t.vmas (t.totalVmas - 1)).toArea) := by
  cases hmoved with
  | none same last =>
    rw [same]
    refine ⟨rfl, fun _ => ?_, fun _ => List.Perm.refl _⟩
    intro i hi hlt
    have := last i hi
    omega
  | up i index nonneg lt total area =>
    refine ⟨total, ?_⟩
    have hu : u.liveAreas.Perm ((t.vmas (i + 1)).toArea ::
        entries (fun j => (t.vmas j).toArea) (t.totalVmas - 1)) := by
      have hmoved := entries_moved_perm nonneg (show i < t.totalVmas - 1 by omega)
        (Int.sub_le_self _ (by decide)) area
      rw [show t.totalVmas - 1 + 1 = t.totalVmas by omega] at hmoved
      unfold liveAreas
      rw [total]
      exact hmoved
    have ht : t.liveAreas.Perm ((t.vmas (t.totalVmas - 1)).toArea ::
        entries (fun j => (t.vmas j).toArea) (t.totalVmas - 1)) := by
      have hsucc := entries_succ_perm (fun j => (t.vmas j).toArea)
        (show 0 ≤ t.totalVmas - 1 by omega)
      rwa [show t.totalVmas - 1 + 1 = t.totalVmas by omega] at hsucc
    have hiff : u.liveAreas.Perm t.liveAreas ↔
        (t.vmas (i + 1)).toArea = (t.vmas (t.totalVmas - 1)).toArea := by
      rw [← perm_cons_iff (l := entries (fun j => (t.vmas j).toArea) (t.totalVmas - 1))]
      exact ⟨fun h => hu.symm.trans (h.trans ht), fun h => hu.trans (h.trans ht.symm)⟩
    rw [hiff]
    constructor
    · intro heq j hj _
      rw [index] at hj
      cases hj
      exact heq
    · intro hall
      exact hall i index lt

/-- What becomes live when the search has passed all live entries is not the new mapping. -/
theorem Moved.not_perm (hmoved : Moved t u addr length) (h0 : 0 ≤ t.totalVmas) (hpos : 0 < length)
    (hmax : length < 2 ^ 31) (hpasses : u.Passes length) :
    ¬ ((u.vmas u.totalVmas).toArea :: u.liveAreas).Perm
      (newArea (u.endOf u.totalVmas) length prot flags offset file :: t.liveAreas) := by
  have haligned : pgsize ∣ u.endOf u.totalVmas := dvd_pgroundup _
  obtain ⟨hlo, hhi⟩ := endOf_mem u u.totalVmas
  cases hmoved with
  | none same last =>
    rw [same] at haligned hlo hhi ⊢
    intro hperm
    have heq := perm_cons_iff.mp hperm
    exact (wide_of_twice haligned hlo hhi hpos hmax (congrArg Area.addr heq)
      (congrArg Area.len heq)).1 rfl
  | up i index nonneg lt total area =>
    -- the entry behind the gap is there twice
    have hperm' : ((u.vmas u.totalVmas).toArea :: u.liveAreas).Perm
        ((t.vmas (i + 1)).toArea :: t.liveAreas) := by
      have hsucc := entries_succ_perm (fun j => (u.vmas j).toArea)
        (show 0 ≤ u.totalVmas by omega)
      refine hsucc.symm.trans ?_
      rw [total]
      exact entries_moved_perm nonneg (by omega) (Int.le_refl _) area
    intro hperm
    have heq := perm_cons_iff.mp (hperm'.symm.trans hperm)
    have hthis : (u.vmas (i + 1)).toArea = (t.vmas (i + 1)).toArea := by
      rw [area, if_neg (by omega)]
    have hnext : (u.vmas (i + 1 + 1)).toArea = (t.vmas (i + 1)).toArea := by
      rw [area, if_pos (by omega), show i + 1 + 1 - 1 = i + 1 by omega]
    refine (hpasses.behind (i + 1) (by omega) (by omega)).2 ?_
    refine (wide_of_twice haligned hlo hhi hpos hmax ?_ ?_).2 ?_
    · rw [hthis, heq]
      rfl
    · rw [hthis, heq]
      rfl
    · rw [hnext, heq]
      rfl

/-! ## What a call adds -/

/-- `ummap` adds exactly one live entry if and only if it is clean. -/
theorem addsOne_iff_clean (h0 : 0 ≤ t.totalVmas) (hpos : 0 < length) (hmax : length < 2 ^ 31) :
    t.AddsOne addr length prot flags offset file ↔ t.Clean addr length flags := by
  unfold AddsOne
  simp only
  by_cases hreaches : t.Reaches addr length flags
  · by_cases hhint : t.TakesHint addr length
    · refine ⟨fun _ _ _ hno => absurd hhint hno, fun _ _ => ?_⟩
      obtain ⟨i, hlow, hlive, heq⟩ := hhint.ummap_eq prot offset file hreaches h0
      rw [heq]
      obtain ⟨haddr, htotal, -⟩ := fillEntry_area (t := t) (i := i) prot flags offset file hhint.2
      refine ⟨htotal, ?_⟩
      rw [haddr]
      exact fillEntry_perm prot flags offset file hlow hlive hhint.2
    · by_cases hplace : ¬ has flags mapFixed ∧
          ∃ x ∈ (t.checkMmapPossible addr length).2.findPlace length, Fits length x.2
      · obtain ⟨hfixed, x, hx, hfits⟩ := hplace
        obtain ⟨-, hmoved⟩ := checkMmapPossible_moved h0 hhint
        obtain ⟨htotal, hperm⟩ := hmoved.perm h0
        have hclean : t.Clean addr length flags ↔
            ¬ (t.checkMmapPossible addr length).2.Passes length ∧
              (t.checkMmapPossible addr length).2.liveAreas.Perm t.liveAreas := by
          rw [hperm]
          exact ⟨fun hall => hall hreaches hfixed hhint ⟨x, hx, hfits⟩, fun hone _ _ _ _ => hone⟩
        rw [hclean, hreaches.ummap_found prot offset file h0 hfixed hhint hx hfits]
        generalize (t.checkMmapPossible addr length).2 = u at *
        obtain ⟨haddr, htotal', -⟩ := fillEntry_area (t := u) (i := x.1) prot flags offset file hfits
        simp only at haddr htotal' ⊢
        rw [haddr, htotal', htotal]
        have hne : x.2 ≠ -1 := by
          have := (findPlace_addr hx).1
          unfold pgsize at this
          omega
        rcases findPlace_behind (by omega) hx with ⟨hlive, hstops⟩ | ⟨hindex, hend, hpasses⟩
        · have hnew := fillEntry_perm (t := u) prot flags offset file (findPlace_mem hx) hlive hfits
          constructor
          · intro hadds
            exact ⟨hstops, (List.perm_cons _).mp (hnew.symm.trans (hadds hne).2)⟩
          · rintro ⟨-, hsame⟩ -
            exact ⟨rfl, hnew.trans (hsame.cons _)⟩
        · have hnew := fillEntry_behind_perm (t := u) prot flags offset file (by omega) hfits
          rw [← hindex] at hnew
          constructor
          · intro hadds
            have hperm' := hnew.symm.trans (hadds hne).2
            rw [hindex, hend] at hperm'
            exact absurd hperm' (hmoved.not_perm h0 hpos hmax hpasses)
          · rintro ⟨hstops, -⟩
            exact absurd hpasses hstops
      · have hfail : (t.ummap addr length prot flags offset file).1 = -1 := by
          refine hreaches.ummap_none h0 hhint ?_
          by_cases hfixed : has flags mapFixed = true
          · exact .inl hfixed
          · exact .inr fun x hx hfits => hplace ⟨hfixed, x, hx, hfits⟩
        refine ⟨fun _ _ hfixed _ hfound => absurd ⟨hfixed, hfound⟩ hplace, fun _ hne => ?_⟩
        exact absurd hfail hne
  · have hfail := congrArg Prod.fst (ummap_of_not_reaches prot offset file hreaches)
    exact ⟨fun _ hr => absurd hr hreaches, fun _ hne => absurd hfail hne⟩

/-! ## Runs -/

theorem chooseEntry_total (t : Table) (addr length : Int) (flags : UInt32) :
    (t.chooseEntry addr length flags).2.totalVmas = t.totalVmas := by
  have hcheck (t : Table) : (t.checkMmapPossible addr length).2.totalVmas = t.totalVmas := by
    rw [checkMmapPossible_eq]
    cases t.checkIndex addr length with
    | none => rfl
    | some i => exact (setupMmapArr_area t length i _).1
  have hfind (t : Table) : (t.findMmapAddr length).2.totalVmas = t.totalVmas := by
    rw [findMmapAddr_eq]
    cases t.findPlace length with
    | none => rfl
    | some x => exact (setupMmapArr_area t length x.1 x.2).1
  unfold chooseEntry
  simp only
  split
  · split
    · rfl
    · split
      · rfl
      · exact hcheck t
  · split
    · rfl
    · split
      · exact hcheck t
      · rw [hfind, hcheck]

/-- `ummap` does not make entries disappear. -/
theorem totalVmas_le_ummap (t : Table) (addr length : Int) (prot flags : UInt32) (offset : Int)
    (file : UInt32) : t.totalVmas ≤ (t.ummap addr length prot flags offset file).2.totalVmas := by
  have htotal := chooseEntry_total t addr length flags
  unfold ummap
  simp only
  split
  · exact Int.le_refl _
  · split
    · exact Int.le_refl _
    · split
      · exact Int.le_of_eq htotal.symm
      · simp only [fillEntry, totalVmas_set]
        omega

/-- `umunmap` removes an entry only while there is a live one. -/
def StaysCounted (t : Table) : Call → Prop
  | .umunmap addr length filewrite =>
    ∀ i, t.Removes (i32 addr) (i32 length) filewrite i → 0 < t.totalVmas
  | .ummap .. | .pgft .. | .ofile _ | .neighbour _ => True

theorem StaysCounted.nonneg {c : Call} (hc : t.StaysCounted c) (h0 : 0 ≤ t.totalVmas) :
    0 ≤ (t.next c).totalVmas := by
  cases c with
  | ummap addr length prot flags offset file =>
    exact Int.le_trans h0 (totalVmas_le_ummap t _ _ _ _ _ _)
  | umunmap addr length filewrite =>
    show 0 ≤ (t.umunmap (i32 addr) (i32 length) filewrite).2.1.totalVmas
    cases t.umunmap_cases (i32 addr) (i32 length) filewrite with
    | failed eq none =>
      rw [eq]
      exact h0
    | removed i removes eq =>
      have hlive := hc i removes
      rw [eq]
      simp only [removeEntry]
      omega
    | shortened i finds part eq =>
      rw [eq]
      exact h0
  | pgft faultAddr present =>
    show 0 ≤ (t.pgftHandler (u32 faultAddr) present).2.totalVmas
    rw [(pgftHandler_files t (u32 faultAddr) present).1]
    exact h0
  | ofile below => exact h0
  | neighbour above => exact h0

/-- In every state that a run from an empty table reaches, `ummap` adds one live entry if and only
if it is clean, as long as `umunmap` removes no entry when none is live. -/
theorem ummap_adds_one_iff {t₀ : Table} {cs : List Call} (hempty : t₀.Empty)
    (run : Run (guarded StaysCounted (stepOf step)) t₀ cs t) (hpos : 0 < length)
    (hmax : length < 2 ^ 31) :
    t.AddsOne addr length prot flags offset file ↔ t.Clean addr length flags := by
  have h0 : 0 ≤ t.totalVmas := by
    refine run.invariant (fun t => 0 ≤ t.totalVmas) (Int.le_of_eq hempty.total.symm) ?_
    rintro u c v hu ⟨hc, hstep⟩
    cases hstep
    exact hc.nonneg hu
  exact addsOne_iff_clean h0 hpos hmax

/-- The theorem at the second of two pages. -/
theorem ummap_adds_one_iff_second_page :
    (freshTable.next mapPage).AddsOne 0 4096 0 mapPrivate 0 0 := by
  have hrun : Run (guarded StaysCounted (stepOf step)) freshTable [mapPage]
      (freshTable.next mapPage) := Run.snoc Run.nil ⟨trivial, rfl⟩
  refine (ummap_adds_one_iff freshTable_empty hrun (by decide) (by decide)).mpr ?_
  intro _ _ _ _
  refine ⟨?_, ?_⟩
  · intro hpasses
    have htotal : ((freshTable.next mapPage).checkMmapPossible 0 4096).2.totalVmas = 1 := by
      decide +kernel
    have hbehind := (hpasses.behind 0 (Int.le_refl 0) (by rw [htotal]; decide)).1
    exact hbehind (by decide +kernel)
  · have hnone : (freshTable.next mapPage).checkIndex 0 4096 = none := by decide +kernel
    intro i hi
    rw [hnone] at hi
    cases hi

/-- Calls of `ummap` and `umunmap` with page-aligned addresses and positive lengths. -/
def Regular : Call → Prop
  | .ummap addr length _ _ _ _ | .umunmap addr length _ => pgsize ∣ i32 addr ∧ 0 < i32 length
  | .pgft .. => False
  | .ofile _ | .neighbour _ => True

/-- Three pages are mapped; the first one and then the third one are unmapped. What is left of the
third one stands behind the only live entry. -/
def leaveThird : List Call :=
  [mapPage, mapPage, mapPage, .umunmap mmapBase 4096 0, .umunmap (mmapBase + 8192) 4096 0]

/-- There, a mapping of two pages brings the third page back. -/
theorem ummap_not_adds_one_after_leaveThird :
    ¬ ∀ (t₀ t : Table) (cs : List Call) (addr length : Int) (prot flags : UInt32) (offset : Int)
      (file : UInt32), t₀.Empty → Run (guarded (fun _ => Regular) (stepOf step)) t₀ cs t →
        0 < length → length < 2 ^ 31 → t.AddsOne addr length prot flags offset file := by
  intro hall
  have hrun : Run (guarded (fun _ => Regular) (stepOf step)) freshTable leaveThird
      (leaveThird.foldl next freshTable) := by
    have hmap : Regular mapPage := ⟨by decide, by decide⟩
    have hunmap : Regular (.umunmap mmapBase 4096 0) := ⟨by decide, by decide⟩
    have hunmap' : Regular (.umunmap (mmapBase + 8192) 4096 0) := ⟨by decide, by decide⟩
    exact ((((Run.nil.snoc ⟨hmap, rfl⟩).snoc ⟨hmap, rfl⟩).snoc ⟨hmap, rfl⟩).snoc
      ⟨hunmap, rfl⟩).snoc ⟨hunmap', rfl⟩
  have hadds := hall freshTable _ leaveThird 0 8192 0 mapPrivate 0 0 freshTable_empty hrun
    (by decide) (by decide)
  have hone : ((leaveThird.foldl next freshTable).ummap 0 8192 0 mapPrivate 0 0).1 =
      mmapBase + 12288 := by decide +kernel
  have hperm := (hadds (by rw [hone]; decide)).2
  have hmem := hperm.symm.subset (List.mem_cons_self ..)
  rw [hone] at hmem
  revert hmem
  decide +kernel

end Table

end Cs537.P5
