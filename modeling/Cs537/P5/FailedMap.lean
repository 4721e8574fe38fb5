import Cs537.P5.LiveEntries

/-!
# What a failed `ummap` leaves behind

`setup_mmap_arr` moves the entries behind the new one up before it finds that the range ends too
high, and nothing moves them back. `ummap` may come to such an end twice, first at the hint and
then at the place that `find_mmap_addr` has chosen. A call that fails leaves the live entries as
they were exactly if those that were moved in vain are all alike, which one entry always is.
-/

namespace Cs537.P5

open Cs537.Lib

namespace Table

variable {t u : Table} {addr length : Int} {prot flags : UInt32} {offset : Int} {file : UInt32}
variable {i size a : Int}

/-- The right shift of `setup_mmap_arr` (`sys_mmap.c:148-152`): the entries behind `i` are moved up
by one. -/
def rightShift (t : Table) (i : Int) : Table :=
  { t with vmas := shiftUp copyMmapStruct t.vmas (t.totalVmas - (i + 1)).toNat t.totalVmas }

/-- `total_vmas` and all fields of the live entries are the same. -/
def Untouched (t u : Table) : Prop :=
  u.totalVmas = t.totalVmas ∧ ∀ j, 0 ≤ j → j < t.totalVmas → u.vmas j = t.vmas j

/-- If the call fails, the live entries are as before. -/
def FailsUntouched (t : Table) (addr length : Int) (prot flags : UInt32) (offset : Int)
    (file : UInt32) : Prop :=
  let r := t.ummap addr length prot flags offset file
  r.1 = -1 → t.Untouched r.2

/-- The live entries behind `i` are all alike. -/
def AlikeBehind (t : Table) (i : Int) : Prop :=
  ∀ j, i + 1 < j → j < t.totalVmas → (t.vmas j).toArea = (t.vmas (i + 1)).toArea

/-- The table with the entries behind the gap for the hint moved up, if there is such a gap. -/
def hintShift (t : Table) (addr length : Int) : Table :=
  (t.checkIndex addr length).elim t t.rightShift

/-- A call that is bound to fail, because its range ends too high in every gap it may be put into,
moves no entries that differ: neither those behind the gap for the hint nor those behind the gap
that the search finds afterwards. -/
def MovesAlike (t : Table) (addr length : Int) (flags : UInt32) : Prop :=
  t.Reaches addr length flags → ¬ t.TakesHint addr length →
    (has flags mapFixed ∨
      ∀ x ∈ (t.hintShift addr length).findPlace length, ¬ Fits length x.2) →
      (∀ i ∈ t.checkIndex addr length, t.AlikeBehind i) ∧
        (¬ has flags mapFixed → ∀ x ∈ (t.hintShift addr length).findPlace length,
          (t.hintShift addr length).AlikeBehind x.1)

/-! ## Entries moved up -/

theorem Untouched.refl (t : Table) : t.Untouched t := ⟨rfl, fun _ _ _ => rfl⟩

theorem setupMmapArr_of_not_fits (h : ¬ Fits size a) :
    t.setupMmapArr size i a = (-1, t.rightShift i) := by
  unfold Fits at h
  exact setupMmapArr_of_ge (by omega)

@[simp] theorem rightShift_total (t : Table) (i : Int) :
    (t.rightShift i).totalVmas = t.totalVmas := rfl

/-- What a shift does to an entry: it replaces the fields that `copy_mmap_struct` copies. -/
theorem rightShift_vmas (t : Table) (i j : Int) :
    (t.rightShift i).vmas j =
      { t.vmas j with toArea := movedUp (fun j => (t.vmas j).toArea) i t.totalVmas j } := by
  unfold rightShift movedUp
  simp only [shiftUp_apply]
  by_cases hin : i + 1 < j ∧ j ≤ t.totalVmas
  · rw [if_pos hin, if_pos (by omega)]
    rfl
  · rw [if_neg hin, if_neg (by omega)]

theorem rightShift_area (t : Table) (i : Int) :
    (fun j => ((t.rightShift i).vmas j).toArea) =
      movedUp (fun j => (t.vmas j).toArea) i t.totalVmas := by
  funext j
  rw [rightShift_vmas]

/-- One shift. -/
theorem rightShift_untouched_iff (hi : -1 ≤ i) :
    t.Untouched (t.rightShift i) ↔ t.AlikeBehind i := by
  unfold AlikeBehind
  rw [← movedUp_eq_iff (f := fun j => (t.vmas j).toArea) hi]
  constructor
  · rintro ⟨-, hsame⟩ j h0 hj
    rw [← rightShift_area]
    exact congrArg Vma.toArea (hsame j h0 hj)
  · intro hsame
    refine ⟨rfl, ?_⟩
    intro j h0 hj
    rw [rightShift_vmas, hsame j h0 hj]

/-- Two shifts, the second of which does not undo the first. -/
theorem rightShift_rightShift_untouched_iff {k : Int} (hi : -1 ≤ i) (hk : -1 ≤ k) :
    t.Untouched ((t.rightShift i).rightShift k) ↔
      t.AlikeBehind i ∧ (t.rightShift i).AlikeBehind k := by
  rw [← rightShift_untouched_iff hi, ← rightShift_untouched_iff hk]
  constructor
  · rintro ⟨-, hsame⟩
    have hareas : ∀ j, 0 ≤ j → j < t.totalVmas →
        movedUp (movedUp (fun j => (t.vmas j).toArea) i t.totalVmas) k t.totalVmas j =
          (t.vmas j).toArea := by
      intro j h0 hj
      have := congrArg Vma.toArea (hsame j h0 hj)
      rwa [rightShift_vmas, rightShift_area] at this
    obtain ⟨hfirst, hsecond⟩ := (movedUp_movedUp_eq_iff hi hk).mp hareas
    refine ⟨⟨rfl, ?_⟩, rfl, ?_⟩
    · intro j h0 hj
      rw [rightShift_vmas, hfirst j h0 hj]
    · intro j h0 hj
      rw [rightShift_vmas (t.rightShift i), rightShift_area, rightShift_total, hsecond j h0 hj,
        ← rightShift_area]
  · rintro ⟨⟨-, hfirst⟩, -, hsecond⟩
    refine ⟨rfl, ?_⟩
    intro j h0 hj
    rw [hsecond j h0 hj, hfirst j h0 hj]

/-! ## Calls that fail -/

/-- An attempt at the hint that fails. -/
theorem checkMmapPossible_of_not_takes (hhint : ¬ t.TakesHint addr length) :
    t.checkMmapPossible addr length = (-1, t.hintShift addr length) := by
  rw [checkMmapPossible_eq]
  unfold hintShift
  cases hindex : t.checkIndex addr length with
  | none => rfl
  | some i =>
    exact setupMmapArr_of_not_fits fun hfits => hhint ⟨by rw [hindex]; rfl, hfits⟩

/-- An attempt elsewhere that fails. -/
theorem findMmapAddr_of_not_fits (hnone : ∀ x ∈ t.findPlace length, ¬ Fits length x.2) :
    t.findMmapAddr length =
      (-1, (t.findPlace length).elim t fun x => t.rightShift x.1) := by
  rw [findMmapAddr_eq]
  cases hplace : t.findPlace length with
  | none => rfl
  | some x => exact setupMmapArr_of_not_fits (hnone x hplace)

/-- What a call that finds no place leaves. -/
theorem Reaches.ummap_fails (h : t.Reaches addr length flags) (hhint : ¬ t.TakesHint addr length)
    (hnone : has flags mapFixed ∨
      ∀ x ∈ (t.hintShift addr length).findPlace length, ¬ Fits length x.2) :
    t.ummap addr length prot flags offset file =
      (-1, if has flags mapFixed then t.hintShift addr length
        else ((t.hintShift addr length).findPlace length).elim (t.hintShift addr length)
          fun x => (t.hintShift addr length).rightShift x.1) := by
  have hchoose : t.chooseEntry addr length flags =
      (-1, if has flags mapFixed then t.hintShift addr length
        else ((t.hintShift addr length).findPlace length).elim (t.hintShift addr length)
          fun x => (t.hintShift addr length).rightShift x.1) := by
    rw [h.chooseEntry_eq, checkMmapPossible_of_not_takes hhint]
    by_cases hfixed : has flags mapFixed = true
    · rw [if_pos (.inl hfixed), if_pos hfixed]
    · rw [if_neg (fun hor => hor.elim hfixed (fun hne => hne rfl)), if_neg hfixed]
      exact findMmapAddr_of_not_fits (hnone.resolve_left hfixed)
  rw [h.ummap_eq, hchoose]
  rfl

/-- A call that finds a place returns an address. -/
theorem Reaches.ummap_succeeds (h : t.Reaches addr length flags) (h0 : 0 ≤ t.totalVmas)
    (hplace : t.TakesHint addr length ∨ ¬ has flags mapFixed ∧
      ∃ x ∈ (t.hintShift addr length).findPlace length, Fits length x.2) :
    (t.ummap addr length prot flags offset file).1 ≠ -1 := by
  have hne {a : Int} (ha : pgsize ∣ a) : a ≠ -1 := by
    unfold pgsize at ha
    omega
  by_cases hhint : t.TakesHint addr length
  · obtain ⟨i, -, -, heq⟩ := hhint.ummap_eq prot offset file h h0
    rw [heq, (fillEntry_area (t := t) (i := i) prot flags offset file hhint.2).1]
    exact hne (dvd_pgroundup _)
  · obtain ⟨hfixed, x, hx, hfits⟩ := hplace.resolve_left hhint
    have hchecked := congrArg Prod.snd (checkMmapPossible_of_not_takes hhint)
    simp only at hchecked
    rw [← hchecked] at hx
    rw [h.ummap_found prot offset file h0 hfixed hhint hx hfits,
      (fillEntry_area (i := x.1) prot flags offset file hfits).1]
    exact hne (findPlace_addr hx).1

/-- The shifts of a call that fails, none to two of them. -/
theorem shifts_untouched_iff (h0 : 0 ≤ t.totalVmas) (addr length : Int) (flags : UInt32) :
    t.Untouched (if has flags mapFixed then t.hintShift addr length
        else ((t.hintShift addr length).findPlace length).elim (t.hintShift addr length)
          fun x => (t.hintShift addr length).rightShift x.1) ↔
      (∀ i ∈ t.checkIndex addr length, t.AlikeBehind i) ∧
        (¬ has flags mapFixed → ∀ x ∈ (t.hintShift addr length).findPlace length,
          (t.hintShift addr length).AlikeBehind x.1) := by
  have hfirst : t.Untouched (t.hintShift addr length) ↔
      ∀ i ∈ t.checkIndex addr length, t.AlikeBehind i := by
    unfold hintShift
    cases hindex : t.checkIndex addr length with
    | none => exact iff_of_true (.refl t) (fun i hi => by cases hi)
    | some i =>
      rw [Option.elim_some, rightShift_untouched_iff (checkIndex_mem h0 hindex).1]
      exact ⟨fun h j hj => by cases hj; exact h, fun h => h i rfl⟩
  by_cases hfixed : has flags mapFixed = true
  · rw [if_pos hfixed, hfirst]
    exact ⟨fun h => ⟨h, fun hno => absurd hfixed hno⟩, And.left⟩
  · rw [if_neg hfixed]
    cases hplace : (t.hintShift addr length).findPlace length with
    | none =>
      rw [Option.elim_none, hfirst]
      exact ⟨fun h => ⟨h, fun _ x hx => by cases hx⟩, And.left⟩
    | some x =>
      have hlow := findPlace_mem hplace
      rw [Option.elim_some]
      have hall : (¬ has flags mapFixed = true → ∀ y ∈ some x,
          (t.hintShift addr length).AlikeBehind y.1) ↔
            (t.hintShift addr length).AlikeBehind x.1 :=
        ⟨fun h => h hfixed x rfl, fun h _ y hy => by cases hy; exact h⟩
      rw [hall]
      unfold hintShift
      cases hindex : t.checkIndex addr length with
      | none =>
        rw [Option.elim_none, rightShift_untouched_iff hlow]
        exact ⟨fun h => ⟨fun i hi => (by cases hi), h⟩, And.right⟩
      | some i =>
        rw [Option.elim_some, rightShift_rightShift_untouched_iff (checkIndex_mem h0 hindex).1 hlow]
        exact ⟨fun h => ⟨fun j hj => by cases hj; exact h.1, h.2⟩, fun h => ⟨h.1 i rfl, h.2⟩⟩

/-- The entry that was chosen begins at a page. -/
theorem setupMmapArr_addr (hfound : (t.setupMmapArr size i a).1 ≠ -1) :
    ((t.setupMmapArr size i a).2.vmas (t.setupMmapArr size i a).1).addr = a := by
  by_cases hfits : Fits size a
  · obtain ⟨hindex, -, hspans⟩ := setupMmapArr_of_lt (t := t) (i := i) hfits
    have hspan := hspans (i + 1)
    rw [if_pos rfl] at hspan
    rw [hindex]
    exact congrArg Span.addr hspan
  · rw [setupMmapArr_of_not_fits hfits] at hfound
    exact absurd rfl hfound

theorem Reaches.chooseEntry_addr (h : t.Reaches addr length flags)
    (hfound : (t.chooseEntry addr length flags).1 ≠ -1) :
    pgsize ∣ ((t.chooseEntry addr length flags).2.vmas (t.chooseEntry addr length flags).1).addr := by
  have hcheck (hfound : (t.checkMmapPossible addr length).1 ≠ -1) :
      pgsize ∣ ((t.checkMmapPossible addr length).2.vmas
        (t.checkMmapPossible addr length).1).addr := by
    rw [checkMmapPossible_eq] at hfound ⊢
    cases hindex : t.checkIndex addr length with
    | none =>
      rw [hindex] at hfound
      exact absurd rfl hfound
    | some i =>
      rw [hindex] at hfound
      simp only at hfound ⊢
      rw [setupMmapArr_addr hfound]
      exact dvd_pgroundup addr
  have hfind (u : Table) (hfound : (u.findMmapAddr length).1 ≠ -1) :
      pgsize ∣ ((u.findMmapAddr length).2.vmas (u.findMmapAddr length).1).addr := by
    rw [findMmapAddr_eq] at hfound ⊢
    cases hplace : u.findPlace length with
    | none =>
      rw [hplace] at hfound
      exact absurd rfl hfound
    | some x =>
      rw [hplace] at hfound
      simp only at hfound ⊢
      rw [setupMmapArr_addr hfound]
      exact (findPlace_addr hplace).1
  rw [h.chooseEntry_eq] at hfound ⊢
  split at hfound
  next hchecked =>
    rw [if_pos hchecked]
    exact hcheck hfound
  next hsearched =>
    rw [if_neg hsearched]
    exact hfind _ hfound

/-- A call that fails does not count an entry. -/
theorem ummap_total_of_fails (h : (t.ummap addr length prot flags offset file).1 = -1) :
    (t.ummap addr length prot flags offset file).2.totalVmas = t.totalVmas := by
  by_cases hreaches : t.Reaches addr length flags
  · rw [hreaches.ummap_eq] at h ⊢
    simp only at h ⊢
    by_cases hfound : (t.chooseEntry addr length flags).1 = -1
    · rw [if_pos hfound]
      exact chooseEntry_total t addr length flags
    · rw [if_neg hfound] at h
      have haddr := hreaches.chooseEntry_addr hfound
      have hfill : ((t.chooseEntry addr length flags).2.vmas
          (t.chooseEntry addr length flags).1).addr = -1 := by
        simpa only [fillEntry, set, Function.update_self] using h
      rw [hfill] at haddr
      exact absurd haddr (by decide)
  · rw [ummap_of_not_reaches prot offset file hreaches]

/-- Where there is no live entry, none changes. -/
theorem untouched_of_nonpos (htotal : u.totalVmas = t.totalVmas) (h : t.totalVmas ≤ 0) :
    t.Untouched u :=
  ⟨htotal, fun j h0 hj => by omega⟩

theorem movesAlike_of_neg (h : t.totalVmas < 0) : t.MovesAlike addr length flags := by
  intro _ _ _
  refine ⟨?_, ?_⟩
  · intro i hi j hij hj
    have hlow : t.totalVmas - 1 ≤ i := by
      unfold checkIndex at hi
      split at hi
      · cases hi
        exact Int.le_refl _
      · have := gapIndex_mem hi
        omega
    omega
  · intro _ x hx j hij hj
    have hlow := findPlace_mem hx
    have htotal : (t.hintShift addr length).totalVmas = t.totalVmas := by
      unfold hintShift
      cases t.checkIndex addr length with
      | none => rfl
      | some i => rfl
    omega

/-- A call that fails leaves the live entries as they were if and only if it moves no entries that
differ. -/
theorem failsUntouched_iff :
    t.FailsUntouched addr length prot flags offset file ↔ t.MovesAlike addr length flags := by
  unfold FailsUntouched
  simp only
  by_cases hneg : t.totalVmas < 0
  · refine iff_of_true (fun hfail => ?_) (movesAlike_of_neg hneg)
    exact untouched_of_nonpos (ummap_total_of_fails hfail) (by omega)
  · have h0 : 0 ≤ t.totalVmas := by omega
    by_cases hreaches : t.Reaches addr length flags
    · by_cases hplace : t.TakesHint addr length ∨ ¬ has flags mapFixed ∧
          ∃ x ∈ (t.hintShift addr length).findPlace length, Fits length x.2
      · refine iff_of_true (fun hfail => ?_) (fun _ hhint hnone => ?_)
        · exact absurd hfail (hreaches.ummap_succeeds h0 hplace)
        · obtain ⟨hfixed, x, hx, hfits⟩ := hplace.resolve_left hhint
          exact absurd hfits (hnone.resolve_left hfixed x hx)
      · have hhint : ¬ t.TakesHint addr length := fun hhint => hplace (.inl hhint)
        have hnone : has flags mapFixed ∨
            ∀ x ∈ (t.hintShift addr length).findPlace length, ¬ Fits length x.2 := by
          by_cases hfixed : has flags mapFixed = true
          · exact .inl hfixed
          · exact .inr fun x hx hfits => hplace (.inr ⟨hfixed, x, hx, hfits⟩)
        rw [hreaches.ummap_fails hhint hnone]
        have hiff := shifts_untouched_iff h0 addr length flags
        exact ⟨fun h _ _ _ => hiff.mp (h rfl), fun h _ => hiff.mpr (h hreaches hhint hnone)⟩
    · refine iff_of_true (fun _ => ?_) (fun hr => absurd hr hreaches)
      rw [ummap_of_not_reaches prot offset file hreaches]
      exact .refl t

/-! ## Runs -/

/-- In every table that a run from an empty one reaches, a call of `ummap` that fails leaves
`total_vmas` and all live entries as they were if and only if it moves no entries that differ. -/
theorem failed_ummap_untouched_iff {t₀ : Table} {cs : List Call} :
    t₀.Empty → Run (stepOf step) t₀ cs t →
      ∀ (addr length : Int) (prot flags : UInt32) (offset : Int) (file : UInt32),
        t.FailsUntouched (i32 addr) (i32 length) prot flags offset file ↔
          t.MovesAlike (i32 addr) (i32 length) flags := by
  intro _ _ addr length prot flags offset file
  exact failsUntouched_iff

/-- A page at `MMAPBASE` and two more, with a gap before each of these. -/
def threePages : List Call :=
  [mapPage, .ummap (mmapBase + 0x3000) 4096 0 mapPrivate 0 0,
    .ummap (mmapBase + 0x5000) 4096 0 mapPrivate 0 0]

theorem threePages_run :
    Run (stepOf step) freshTable threePages (threePages.foldl next freshTable) :=
  ((Run.nil.snoc rfl).snoc rfl).snoc rfl

/-- The theorem there, for a mapping that fits nowhere. -/
theorem failed_ummap_untouched_iff_three_pages :
    (threePages.foldl next freshTable).FailsUntouched (i32 0) (i32 0x20000000) 0 mapPrivate 0 0 := by
  refine (failed_ummap_untouched_iff freshTable_empty threePages_run 0 0x20000000 0 mapPrivate 0
    0).mpr ?_
  have hindex : (threePages.foldl next freshTable).checkIndex (i32 0) (i32 0x20000000) = none := by
    decide +kernel
  intro _ _ _
  unfold hintShift
  rw [hindex, Option.elim_none]
  have hplace : (threePages.foldl next freshTable).findPlace (i32 0x20000000) = none := by
    decide +kernel
  rw [hplace]
  exact ⟨fun i hi => (by cases hi), fun _ x hx => (by cases hx)⟩

/-- There, a mapping that is to fill the rest of the space from the first gap on fails, but moves
the second page to where the third one was. -/
theorem failed_ummap_touches_three_pages :
    ¬ ∀ (t₀ t : Table) (cs : List Call), t₀.Empty → Run (stepOf step) t₀ cs t →
      ∀ (addr length : Int) (prot flags : UInt32) (offset : Int) (file : UInt32),
        t.FailsUntouched (i32 addr) (i32 length) prot flags offset file := by
  intro hall
  have huntouched := hall freshTable _ threePages freshTable_empty threePages_run
    (mmapBase + 0x2000) 0x1fffe000 0 mapPrivate 0 0 (by decide +kernel)
  have hthird := congrArg Vma.toArea (huntouched.2 2 (by decide) (by decide +kernel))
  revert hthird
  decide +kernel

end Table

end Cs537.P5
