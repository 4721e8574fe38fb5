import Cs537.P5.LiveEntries

/-!
# What `umunmap` leaves in the table

`umunmap` rounds the address up before it looks for an entry, and looks through all 32 slots. The
loop that closes the gap copies entries down and clears nothing, so that the last one stays in its
old slot as well, unless the entry removed was the last one itself. A length close to `2 ^ 31` is
negative when rounded up. `umunmap_edits_iff` says which calls edit the table as they should, in
every state that such calls lead to.
-/

namespace Cs537.P5

open Cs537.Lib

/-- The fields that `zero_mmap_region_struct` writes. -/
def zeroArea : Area := ⟨0, 0, 0, 0, 0, 0⟩

/-- A mapping: its address is a page of an `int`, it ends there too, and it has a kind. -/
structure Area.Sound (a : Area) : Prop where
  aligned : pgsize ∣ a.addr
  lo : -2 ^ 31 ≤ a.addr
  hi : a.addr < 2 ^ 31
  len_lt : a.len < 2 ^ 31
  end_le : 0 < a.len → a.addr + a.len ≤ 2 ^ 31
  kind : a.flags ≠ 0

namespace Table

variable {t : Table} {addr length filewrite : Int}

/-- The table of a process that has not mapped anything, all slots cleared. -/
structure Blank (t : Table) : Prop where
  total : t.totalVmas = 0
  zero : ∀ i, 0 ≤ i → i < 32 → (t.vmas i).toArea = zeroArea

/-- `umunmap` at an address edits the table exactly. Without a live entry there it fails and
changes nothing. With entry `i` there it removes it, or the part of it that is longer stays, in
place; all slots behind the live entries are cleared, and a second call fails. -/
structure Edits (t : Table) (addr length filewrite : Int) : Prop where
  refused : (∀ i, 0 ≤ i → i < t.totalVmas → (t.vmas i).addr ≠ addr) →
    (t.umunmap addr length filewrite).1 = -1 ∧ (t.umunmap addr length filewrite).2.1 = t
  edited : ∀ i, 0 ≤ i → i < t.totalVmas → (t.vmas i).addr = addr →
    (t.umunmap addr length filewrite).1 = 0 →
      (t.umunmap addr length filewrite).2.1.liveAreas =
        if (t.vmas i).len ≤ alignUp pgsize length then t.liveAreas.eraseIdx i.toNat
        else t.liveAreas.set i.toNat { (t.vmas i).toArea with
          addr := addr + alignUp pgsize length, len := (t.vmas i).len - alignUp pgsize length }
  cleared : ∀ i, 0 ≤ i → i < t.totalVmas → (t.vmas i).addr = addr →
    (t.umunmap addr length filewrite).1 = 0 →
      ∀ j, (t.umunmap addr length filewrite).2.1.totalVmas ≤ j → j < 32 →
        ((t.umunmap addr length filewrite).2.1.vmas j).toArea = zeroArea
  again : ∀ i, 0 ≤ i → i < t.totalVmas → (t.vmas i).addr = addr →
    (t.umunmap addr length filewrite).1 = 0 →
      ∀ filewrite', ((t.umunmap addr length filewrite).2.1.umunmap addr length filewrite').1 = -1

/-- The calls that edit the table exactly: a call that goes ahead with an entry has its address,
which no other live entry has. If the entry is not longer than the rounded length, this is seen so
and the entry is the last one, with a cleared slot behind it; what is taken off the front of an
entry is not negative. -/
structure EditsOk (t : Table) (addr length filewrite : Int) : Prop where
  aligned : ∀ i, t.Finds addr filewrite i → pgsize ∣ addr
  only : ∀ i, t.Finds addr filewrite i → ∀ j, 0 ≤ j → j < t.totalVmas → (t.vmas j).addr = addr →
    j = i
  whole : ∀ i, t.Finds addr filewrite i → (t.vmas i).len ≤ alignUp pgsize length →
    (t.vmas i).len ≤ pgroundup length ∧ i = t.totalVmas - 1 ∧
      (t.totalVmas = 32 → (t.vmas 32).addr = 0)
  front : ∀ i, t.Finds addr filewrite i → alignUp pgsize length < (t.vmas i).len →
    0 ≤ alignUp pgsize length

/-! ## The invariant -/

/-- The live entries are mappings, and the slots behind them are cleared. -/
structure Cleared (t : Table) : Prop where
  nonneg : 0 ≤ t.totalVmas
  le : t.totalVmas ≤ 32
  live : ∀ i, 0 ≤ i → i < t.totalVmas → (t.vmas i).toArea.Sound
  dead : ∀ i, t.totalVmas ≤ i → i < 32 → (t.vmas i).toArea = zeroArea

theorem Blank.cleared (h : t.Blank) : t.Cleared := by
  have htotal := h.total
  refine ⟨by omega, by omega, fun i h0 hi => by omega, ?_⟩
  intro i hi hmax
  exact h.zero i (by omega) hmax

/-- An address in any of the slots is an `int`. -/
theorem Cleared.addr_mem (h : t.Cleared) {i : Int} (h0 : 0 ≤ i) (hi : i < 32) :
    -2 ^ 31 ≤ (t.vmas i).addr ∧ (t.vmas i).addr < 2 ^ 31 := by
  by_cases hlive : i < t.totalVmas
  · have hsound := h.live i h0 hlive
    exact ⟨hsound.lo, hsound.hi⟩
  · have haddr : (t.vmas i).addr = 0 := congrArg Area.addr (h.dead i (by omega) hi)
    omega

/-- What `umunmap` finds is a live entry at the rounded address. -/
theorem Finds.live {i : Int} (hfinds : t.Finds addr filewrite i) (h : t.Cleared) :
    0 ≤ i ∧ i < t.totalVmas ∧ (t.vmas i).addr = pgroundup addr := by
  obtain ⟨h0, hi, haddr, -⟩ := findFrom_eq_some hfinds.found
  refine ⟨h0, ?_, ?_⟩
  · by_contra hdead
    exact hfinds.nonempty (congrArg Area.len (h.dead i (by omega) (by omega)))
  · have hmem := h.addr_mem h0 (by omega)
    have hmem' := pgroundup_mem addr
    rw [decide_eq_true_eq] at haddr
    unfold u32 at haddr
    omega

/-- Where no live entry begins, nothing is removed. -/
theorem Cleared.umunmap_eq (h : t.Cleared) (length filewrite : Int)
    (hnone : ∀ i, 0 ≤ i → i < t.totalVmas → (t.vmas i).addr ≠ pgroundup addr) :
    t.umunmap addr length filewrite = (-1, t, []) := by
  have hfinds (i : Int) : ¬ t.Finds addr filewrite i := by
    intro hfinds
    obtain ⟨h0, hlive, haddr⟩ := hfinds.live h
    exact hnone i h0 hlive haddr
  cases t.umunmap_cases addr length filewrite with
  | failed eq none => exact eq
  | removed i removes eq => exact absurd removes.finds (hfinds i)
  | shortened i finds part eq => exact absurd finds (hfinds i)

/-! ## Removing an entry -/

theorem liveAreas_set {i : Int} (v : Vma) (h0 : 0 ≤ i) :
    (t.set i v).liveAreas = t.liveAreas.set i.toNat v.toArea := by
  unfold liveAreas
  rw [← entries_update _ h0]
  refine entries_congr ?_
  intro j _ _
  simp only [set]
  by_cases hj : j = i
  · rw [hj, Function.update_self, Function.update_self]
  · rw [Function.update_of_ne hj, Function.update_of_ne hj]

/-- Removing the last entry clears its slot and does nothing else. -/
theorem Cleared.removeEntry_last (h : t.Cleared) (hn : 0 < t.totalVmas)
    (hbehind : t.totalVmas = 32 → (t.vmas 32).addr = 0) :
    (t.removeEntry (t.totalVmas - 1)).vmas = Function.update t.vmas (t.totalVmas - 1)
      (zeroMmapRegionStruct (t.vmas (t.totalVmas - 1))) := by
  have hle := h.le
  obtain ⟨m, hlow, -, hin, -, hf⟩ := shiftDown_spec copyMmapStruct (fun x => x.addr ≠ 0)
    (Function.update t.vmas (t.totalVmas - 1) (zeroMmapRegionStruct (t.vmas (t.totalVmas - 1))))
    (32 - (t.totalVmas - 1)).toNat (t.totalVmas - 1)
  have hfree : (t.vmas t.totalVmas).addr = 0 := by
    by_cases hfull : t.totalVmas = 32
    · rw [hfull]
      exact hbehind hfull
    · exact congrArg Area.addr (h.dead t.totalVmas (Int.le_refl _) (by omega))
  have hstays : m = t.totalVmas - 1 := by
    by_contra hmoves
    have hused := hin t.totalVmas (by omega) (by omega)
    rw [Function.update_of_ne (by omega)] at hused
    exact of_decide_eq_true hused hfree
  funext j
  refine (hf j).trans ?_
  rw [if_neg (by omega)]

/-- The slot that becomes free when an entry is removed is cleared only if the entry was the last
one, with a cleared slot behind it. -/
theorem Cleared.eq_last (h : t.Cleared) {i : Int} (h0 : 0 ≤ i) (hlive : i < t.totalVmas)
    (hzero : ((t.removeEntry i).vmas (t.totalVmas - 1)).toArea = zeroArea) :
    i = t.totalVmas - 1 ∧ (t.totalVmas = 32 → (t.vmas 32).addr = 0) := by
  have hle := h.le
  obtain ⟨m, hlow, hhigh, hin, hstop, hf⟩ := shiftDown_spec copyMmapStruct (fun x => x.addr ≠ 0)
    (t.set i (zeroMmapRegionStruct (t.vmas i))).vmas (32 - i).toNat i
  have hslot {j : Int} (hj : j ≠ i) :
      (t.set i (zeroMmapRegionStruct (t.vmas i))).vmas j = t.vmas j :=
    Function.update_of_ne hj _ _
  have hvmas : (t.removeEntry i).vmas (t.totalVmas - 1) = _ := hf (t.totalVmas - 1)
  rw [hvmas] at hzero
  by_cases hmoves : t.totalVmas - 1 < m
  · -- the last slot is filled from behind with something that has an address
    have hused := hin t.totalVmas (by omega) (by omega)
    rw [if_pos (by omega), copyMmapStruct, show t.totalVmas - 1 + 1 = t.totalVmas by omega] at hzero
    have haddr := congrArg Area.addr hzero
    exact absurd haddr (of_decide_eq_true hused)
  · rw [if_neg (by omega)] at hzero
    have hlast : i = t.totalVmas - 1 := by
      by_contra hne
      rw [hslot (fun heq => hne heq.symm)] at hzero
      exact (h.live (t.totalVmas - 1) (by omega) (by omega)).kind (congrArg Area.flags hzero)
    refine ⟨hlast, ?_⟩
    intro hfull
    have hunused := hstop (by omega)
    rw [hslot (by omega), show m + 1 = 32 by omega] at hunused
    exact not_not.mp (of_decide_eq_false hunused)

/-- Removing the last entry. -/
theorem Cleared.remove (h : t.Cleared) (hn : 0 < t.totalVmas)
    (hbehind : t.totalVmas = 32 → (t.vmas 32).addr = 0) :
    (t.removeEntry (t.totalVmas - 1)).Cleared ∧
      (t.removeEntry (t.totalVmas - 1)).liveAreas =
        t.liveAreas.eraseIdx (t.totalVmas - 1).toNat := by
  have hle := h.le
  have hvmas := h.removeEntry_last hn hbehind
  have htotal : (t.removeEntry (t.totalVmas - 1)).totalVmas = t.totalVmas - 1 := rfl
  have hold {i : Int} (hi : i ≠ t.totalVmas - 1) :
      (t.removeEntry (t.totalVmas - 1)).vmas i = t.vmas i := by
    rw [hvmas, Function.update_of_ne hi]
  refine ⟨⟨by omega, by omega, ?_, ?_⟩, ?_⟩
  · intro i h0 hi
    rw [hold (by omega)]
    exact h.live i h0 (by omega)
  · intro i hi hmax
    by_cases hlast : i = t.totalVmas - 1
    · rw [hvmas, hlast, Function.update_self]
      rfl
    · rw [hold hlast]
      exact h.dead i (by omega) hmax
  · unfold liveAreas
    rw [entries_eraseIdx_last hn, htotal]
    refine entries_congr ?_
    intro i _ hi
    rw [hold (by omega)]

/-- Taking whole pages off the front of a live entry. -/
theorem Cleared.shorten (h : t.Cleared) {i size : Int} (h0 : 0 ≤ i) (hlive : i < t.totalVmas)
    (hdvd : pgsize ∣ size) (hsize : 0 ≤ size) (hlt : size < (t.vmas i).len) :
    (t.shortenEntry i size).Cleared ∧
      (t.shortenEntry i size).liveAreas = t.liveAreas.set i.toNat
        { (t.vmas i).toArea with addr := (t.vmas i).addr + size, len := (t.vmas i).len - size } := by
  have hle := h.le
  have hsound := h.live i h0 hlive
  obtain ⟨haligned, hlo, hhi, hlen, hend, hkind⟩ := hsound
  have hend := hend (by omega)
  have haddr : i32 ((t.vmas i).addr + size) = (t.vmas i).addr + size :=
    i32_of_mem (by omega) (by omega)
  have hlen' : i32 ((t.vmas i).len - size) = (t.vmas i).len - size :=
    i32_of_mem (by omega) (by omega)
  unfold shortenEntry
  rw [haddr, hlen']
  refine ⟨⟨h.nonneg, h.le, ?_, ?_⟩, liveAreas_set _ h0⟩
  · intro j hj0 hj
    simp only [set]
    by_cases hji : j = i
    · rw [hji, Function.update_self]
      refine ⟨Int.dvd_add haligned hdvd, ?_, ?_, ?_, ?_, hkind⟩
      all_goals
        simp only
        omega
    · rw [Function.update_of_ne hji]
      exact h.live j hj0 hj
  · intro j hj hmax
    have hj : t.totalVmas ≤ j := hj
    simp only [set]
    rw [Function.update_of_ne (by omega)]
    exact h.dead j hj hmax

/-! ## Exact edits -/

theorem Finds.result {i : Int} (h : t.Finds addr filewrite i) (length : Int) :
    (t.umunmap addr length filewrite).1 = 0 := by
  cases t.umunmap_cases addr length filewrite with
  | failed eq none => exact absurd h (none i)
  | removed j removes eq => rw [eq]
  | shortened j finds part eq => rw [eq]

theorem Finds.unique {i j : Int} (hi : t.Finds addr filewrite i) (hj : t.Finds addr filewrite j) :
    i = j := Option.some.inj (hi.found.symm.trans hj.found)

/-- A positive length, rounded up. -/
theorem alignUp_mem (hpos : 0 < length) (hmax : length < 2 ^ 31) :
    0 < alignUp pgsize length ∧ alignUp pgsize length ≤ 2 ^ 31 ∧
      pgroundup length ≤ alignUp pgsize length ∧
      (alignUp pgsize length < 2 ^ 31 → pgroundup length = alignUp pgsize length) := by
  have hle := le_alignUp Span.pgsize_pos length
  have hmax' : alignUp pgsize length ≤ 2 ^ 31 :=
    alignUp_le Span.pgsize_pos _ (by decide) (by omega)
  refine ⟨by omega, hmax', ?_, fun hlt => i32_of_mem (by omega) hlt⟩
  unfold pgroundup i32
  omega

/-- An entry that was changed is not removed. -/
theorem set_ne_eraseIdx {i j : Int} {a : Area} (hj0 : 0 ≤ j) (hj : j < t.totalVmas) :
    t.liveAreas.set i.toNat a ≠ t.liveAreas.eraseIdx j.toNat := by
  intro heq
  have hcount := congrArg List.length heq
  rw [List.length_set, List.length_eraseIdx, liveAreas, length_entries, if_pos (by omega)] at hcount
  omega

/-- A call that edits the table exactly is one of those described. -/
theorem Edits.ok (hedits : t.Edits addr length filewrite) (h : t.Cleared) (hlo : -2 ^ 31 ≤ addr)
    (hhi : addr < 2 ^ 31) (hpos : 0 < length) (hmax : length < 2 ^ 31) :
    t.EditsOk addr length filewrite := by
  have hle := h.le
  obtain ⟨hup, hup', hround, hexact⟩ := alignUp_mem hpos hmax
  have haligned {i : Int} (hfinds : t.Finds addr filewrite i) : pgsize ∣ addr := by
    by_contra hodd
    have hrefused := hedits.refused fun j h0 hj heq => hodd (heq ▸ (h.live j h0 hj).aligned)
    have hresult := hfinds.result length
    omega
  have haddr {i : Int} (hfinds : t.Finds addr filewrite i) :
      0 ≤ i ∧ i < t.totalVmas ∧ (t.vmas i).addr = addr := by
    obtain ⟨h0, hlive, heq⟩ := hfinds.live h
    rw [pgroundup_of_dvd (haligned hfinds) hlo hhi] at heq
    exact ⟨h0, hlive, heq⟩
  refine ⟨fun i hfinds => haligned hfinds, ?_, ?_, fun _ _ _ => by omega⟩
  · intro i hfinds j hj0 hj hjaddr
    obtain ⟨h0, hlive, heq⟩ := haddr hfinds
    by_contra hne
    have hedited := hedits.edited j hj0 hj hjaddr (hfinds.result length)
    cases t.umunmap_cases addr length filewrite with
    | failed eq none => exact none i hfinds
    | removed k removes eq =>
      obtain rfl := hfinds.unique removes.finds
      have hcleared := hedits.cleared i h0 hlive heq (hfinds.result length) (t.totalVmas - 1)
      rw [eq] at hcleared
      obtain ⟨hlast, -⟩ := h.eq_last h0 hlive (hcleared (Int.le_refl _) (by omega))
      -- the entry found is the first one at the address
      obtain ⟨-, -, -, hfirst⟩ := findFrom_eq_some hfinds.found
      have hno := of_decide_eq_false (hfirst j hj0 (by omega))
      rw [hjaddr, pgroundup_of_dvd (haligned hfinds) hlo hhi] at hno
      exact hno rfl
    | shortened k finds part eq =>
      obtain rfl := hfinds.unique finds
      rw [eq] at hedited
      simp only [shortenEntry] at hedited
      rw [liveAreas_set _ h0] at hedited
      split at hedited
      · exact set_ne_eraseIdx hj0 hj hedited
      · have hget := congrArg (fun l => l[i.toNat]?) hedited
        simp only at hget
        rw [List.getElem?_set_self (by rw [liveAreas, length_entries]; omega),
          List.getElem?_set_ne (by omega), liveAreas,
          List.getElem?_eq_getElem (by rw [length_entries]; omega), getElem_entries,
          Option.some.injEq, Int.toNat_of_nonneg h0] at hget
        have := congrArg Area.addr hget
        have hmem := h.addr_mem h0 (by omega)
        simp only [pgroundup] at this
        unfold i32 at this
        omega
  · intro i hfinds hwhole
    obtain ⟨h0, hlive, heq⟩ := haddr hfinds
    cases t.umunmap_cases addr length filewrite with
    | failed eq none => exact absurd hfinds (none i)
    | removed k removes eq =>
      obtain rfl := hfinds.unique removes.finds
      have hcleared := hedits.cleared i h0 hlive heq (hfinds.result length) (t.totalVmas - 1)
      rw [eq] at hcleared
      exact ⟨removes.whole, h.eq_last h0 hlive (hcleared (Int.le_refl _) (by omega))⟩
    | shortened k finds part eq =>
      obtain rfl := hfinds.unique finds
      have hedited := hedits.edited i h0 hlive heq (hfinds.result length)
      rw [eq] at hedited
      simp only [shortenEntry] at hedited
      rw [liveAreas_set _ h0, if_pos hwhole] at hedited
      exact absurd hedited (set_ne_eraseIdx h0 hlive)

/-- What a call described by `EditsOk` does. -/
inductive Edited (t : Table) (addr length : Int) (r : Int × Table × List Int) : Prop
  | failed (eq : r = (-1, t, []))
  | done (i : Int) (nonneg : 0 ≤ i) (live : i < t.totalVmas) (addr_eq : (t.vmas i).addr = addr)
      (only : ∀ j, 0 ≤ j → j < t.totalVmas → (t.vmas j).addr = addr → j = i) (result : r.1 = 0)
      (cleared : r.2.1.Cleared)
      (areas : r.2.1.liveAreas =
        if (t.vmas i).len ≤ alignUp pgsize length then t.liveAreas.eraseIdx i.toNat
        else t.liveAreas.set i.toNat { (t.vmas i).toArea with
          addr := addr + alignUp pgsize length, len := (t.vmas i).len - alignUp pgsize length })
      (others : ∀ j, 0 ≤ j → j < r.2.1.totalVmas →
        j < t.totalVmas ∧ (j ≠ i → r.2.1.vmas j = t.vmas j) ∧
          (j = i → (r.2.1.vmas j).addr = addr + alignUp pgsize length))

theorem EditsOk.edited (hok : t.EditsOk addr length filewrite) (h : t.Cleared)
    (hlo : -2 ^ 31 ≤ addr) (hhi : addr < 2 ^ 31) :
    t.Edited addr length (t.umunmap addr length filewrite) := by
  have hlive {i : Int} (hfinds : t.Finds addr filewrite i) :
      0 ≤ i ∧ i < t.totalVmas ∧ (t.vmas i).addr = addr := by
    obtain ⟨h0, hlive, heq⟩ := hfinds.live h
    rw [pgroundup_of_dvd (hok.aligned i hfinds) hlo hhi] at heq
    exact ⟨h0, hlive, heq⟩
  cases t.umunmap_cases addr length filewrite with
  | failed eq none => exact .failed eq
  | removed i removes eq =>
    obtain ⟨h0, hi, haddr⟩ := hlive removes.finds
    have hwhole : (t.vmas i).len ≤ alignUp pgsize length := by
      by_contra hpart
      have hfront := hok.front i removes.finds (by omega)
      have hlen := (h.live i h0 hi).len_lt
      have hround : pgroundup length = alignUp pgsize length := i32_of_mem (by omega) (by omega)
      have := removes.whole
      omega
    obtain ⟨-, hlast, hbehind⟩ := hok.whole i removes.finds hwhole
    obtain ⟨hcleared, hareas⟩ := h.remove (by omega) hbehind
    rw [← hlast] at hcleared hareas
    rw [eq]
    refine .done i h0 hi haddr (hok.only i removes.finds) rfl hcleared ?_ ?_
    · rw [if_pos hwhole]
      exact hareas
    · intro j hj0 hj
      have hj : j < t.totalVmas - 1 := hj
      refine ⟨by omega, fun hne => ?_, fun heq => by omega⟩
      show (t.removeEntry i).vmas j = _
      rw [hlast, h.removeEntry_last (by omega) hbehind, Function.update_of_ne (by omega)]
  | shortened i finds part eq =>
    obtain ⟨h0, hi, haddr⟩ := hlive finds
    have hpart : alignUp pgsize length < (t.vmas i).len := by
      by_contra hwhole
      have := (hok.whole i finds (by omega)).1
      omega
    have hfront := hok.front i finds hpart
    have hlen := (h.live i h0 hi).len_lt
    have hround : pgroundup length = alignUp pgsize length := i32_of_mem (by omega) (by omega)
    obtain ⟨hcleared, hareas⟩ := h.shorten h0 hi (dvd_alignUp length) hfront hpart
    rw [eq, hround]
    refine .done i h0 hi haddr (hok.only i finds) rfl hcleared ?_ ?_
    · rw [if_neg (by omega), ← haddr]
      exact hareas
    · intro j hj0 hj
      refine ⟨hj, fun hne => ?_, fun heq => ?_⟩
      · simp only [shortenEntry, set]
        rw [Function.update_of_ne hne]
      · have hsound := h.live i h0 hi
        have hend := hsound.end_le (by omega)
        have := hsound.lo
        simp only [shortenEntry, set]
        rw [heq, Function.update_self]
        simp only
        rw [i32_of_mem (by omega) (by omega), haddr]

/-- The calls described edit the table exactly. -/
theorem EditsOk.edits (hok : t.EditsOk addr length filewrite) (h : t.Cleared)
    (hlo : -2 ^ 31 ≤ addr) (hhi : addr < 2 ^ 31) (hpos : 0 < length) (hmax : length < 2 ^ 31) :
    t.Edits addr length filewrite := by
  cases hok.edited h hlo hhi with
  | failed eq =>
    rw [← Prod.eta (t.umunmap addr length filewrite)] at eq
    have hfails (P : Prop) : (t.umunmap addr length filewrite).1 = 0 → P := by
      intro hzero
      rw [congrArg Prod.fst eq] at hzero
      cases hzero
    refine ⟨fun _ => ?_, fun _ _ _ _ => hfails _, fun _ _ _ _ => hfails _, fun _ _ _ _ => hfails _⟩
    exact ⟨congrArg Prod.fst eq, congrArg (fun r => r.2.1) eq⟩
  | done i nonneg live addr_eq only result cleared areas others =>
    refine ⟨fun hnone => absurd addr_eq (hnone i nonneg live), ?_, ?_, ?_⟩
    · intro j hj0 hj haddr _
      rw [only j hj0 hj haddr]
      exact areas
    · intro _ _ _ _ _ j hj hj'
      exact cleared.dead j hj hj'
    · intro _ _ _ _ _ filewrite'
      have haligned : pgsize ∣ addr := addr_eq ▸ (h.live i nonneg live).aligned
      obtain ⟨hup, -⟩ := alignUp_mem hpos hmax
      rw [cleared.umunmap_eq length filewrite' ?_]
      intro j hj0 hj
      obtain ⟨hj', hother, hthis⟩ := others j hj0 hj
      rw [pgroundup_of_dvd haligned hlo hhi]
      by_cases hji : j = i
      · rw [hthis hji]
        omega
      · rw [hother hji]
        exact fun haddr => hji (only j hj0 hj' haddr)

/-! ## Runs -/

/-- A range that `setup_mmap_arr` accepts is a mapping. -/
theorem Fits.sound {a : Int} {prot flags : UInt32} {offset : Int} {file : UInt32}
    (hfits : Fits length a) (haligned : pgsize ∣ a) (hlo : -2 ^ 31 ≤ a) (hhi : a < 2 ^ 31)
    (hmax : length < 2 ^ 31) (hkind : flags ≠ 0) :
    (newArea a length prot flags offset file).Sound := by
  refine ⟨haligned, hlo, hhi, hmax, ?_, hkind⟩
  intro hpos
  unfold Fits at hfits
  rw [pgroundup_i32, u32_i32] at hfits
  unfold newArea alignUp pgsize u32 kernBase at *
  simp only at hpos ⊢
  omega

/-- `ummap` keeps the slots behind the live entries cleared. -/
theorem Cleared.ummap (h : t.Cleared) {flags : UInt32} (prot : UInt32) (offset : Int)
    (file : UInt32) (hmax : length < 2 ^ 31)
    (htidy : t.Reaches addr length flags → t.Tidy addr length flags) :
    (t.ummap addr length prot flags offset file).2.Cleared := by
  rcases ummap_tidy prot offset file h.nonneg htidy with hfail |
    ⟨i, a, hreaches, hlow, hlive, ⟨haligned, hlo, hhi⟩, hfits, heq⟩
  · rw [hfail]
    exact h
  · have hn := h.nonneg
    have hroom := hreaches.room
    have hkind : flags ≠ 0 := by
      rintro rfl
      rcases hreaches.kind with hkind | hkind
      · cases hkind
      · cases hkind
    obtain ⟨-, htotal, harea⟩ := fillEntry_area (t := t) (i := i) prot flags offset file hfits
    rw [heq]
    simp only at htotal harea ⊢
    refine ⟨by omega, by omega, ?_, ?_⟩
    · intro j hj0 hj
      rw [harea]
      split
      · exact hfits.sound haligned hlo hhi hmax hkind
      · split
        · exact h.live (j - 1) (by omega) (by omega)
        · exact h.live j hj0 (by omega)
    · intro j hj hj'
      rw [harea, if_neg (by omega), if_neg (by omega)]
      exact h.dead j (by omega) hj'

/-- The calls that keep the slots behind the live entries cleared: `ummap` moves no entries in
vain, and `umunmap` edits the table exactly. Page faults are left out. -/
def Exact (t : Table) : Call → Prop
  | .ummap addr length _ flags _ _ =>
    t.Reaches (i32 addr) (i32 length) flags → t.Tidy (i32 addr) (i32 length) flags
  | .umunmap addr length filewrite => t.EditsOk (i32 addr) (i32 length) filewrite
  | .pgft .. => False
  | .ofile _ | .neighbour _ => True

instance (t : Table) (addr filewrite i : Int) : Decidable (t.Finds addr filewrite i) :=
  decidable_of_iff (t.findVma (u32 (pgroundup addr)) = some i ∧ (t.vmas i).len ≠ 0 ∧
    ¬ (has (t.vmas i).flags mapShared ∧ ¬ has (t.vmas i).flags mapAnonymous ∧
      has (t.vmas i).prot protWrite ∧ filewrite < 0))
    ⟨fun h => ⟨h.1, h.2.1, h.2.2⟩, fun h => ⟨h.found, h.nonempty, h.written⟩⟩

instance (t : Table) (addr length filewrite : Int) :
    Decidable (t.EditsOk addr length filewrite) :=
  decidable_of_iff (∀ i ∈ t.findVma (u32 (pgroundup addr)), t.Finds addr filewrite i →
    pgsize ∣ addr ∧
    (∀ k < t.totalVmas.toNat, (t.vmas k).addr = addr → (k : Int) = i) ∧
    ((t.vmas i).len ≤ alignUp pgsize length → (t.vmas i).len ≤ pgroundup length ∧
      i = t.totalVmas - 1 ∧ (t.totalVmas = 32 → (t.vmas 32).addr = 0)) ∧
    (alignUp pgsize length < (t.vmas i).len → 0 ≤ alignUp pgsize length)) <| by
    constructor
    · intro h
      refine ⟨fun i hi => (h i hi.found hi).1, ?_, fun i hi => (h i hi.found hi).2.2.1,
        fun i hi => (h i hi.found hi).2.2.2⟩
      intro i hi j h0 hj haddr
      have hk := (h i hi.found hi).2.1 j.toNat (by omega)
      rw [Int.toNat_of_nonneg h0] at hk
      exact hk haddr
    · intro h i _ hi
      exact ⟨h.aligned i hi, fun k hk => h.only i hi k (by omega) (by omega), h.whole i hi,
        h.front i hi⟩

instance (t : Table) : (c : Call) → Decidable (t.Exact c)
  | .ummap addr length _ flags _ _ =>
    inferInstanceAs (Decidable (t.Reaches (i32 addr) (i32 length) flags →
      t.Tidy (i32 addr) (i32 length) flags))
  | .umunmap addr length filewrite =>
    inferInstanceAs (Decidable (t.EditsOk (i32 addr) (i32 length) filewrite))
  | .pgft .. => inferInstanceAs (Decidable False)
  | .ofile _ | .neighbour _ => inferInstanceAs (Decidable True)

theorem Cleared.next (h : t.Cleared) {c : Call} (hc : t.Exact c) : (t.next c).Cleared := by
  have hle := h.le
  cases c with
  | ummap addr length prot flags offset file => exact h.ummap prot offset file (i32_mem _).2 hc
  | umunmap addr length filewrite =>
    show (t.umunmap (i32 addr) (i32 length) filewrite).2.1.Cleared
    have hok : t.EditsOk (i32 addr) (i32 length) filewrite := hc
    cases hok.edited h (i32_mem _).1 (i32_mem _).2 with
    | failed eq =>
      rw [eq]
      exact h
    | done i nonneg live addr_eq only result cleared areas others => exact cleared
  | pgft faultAddr present => exact absurd hc not_false
  | ofile below =>
    refine ⟨h.nonneg, h.le, ?_, ?_⟩
    · intro i h0 hi
      simp only [Table.next, set]
      rw [Function.update_of_ne (by omega)]
      exact h.live i h0 hi
    · intro i hi hmax
      have := h.nonneg
      have hi : t.totalVmas ≤ i := hi
      simp only [Table.next, set]
      rw [Function.update_of_ne (by omega)]
      exact h.dead i hi hmax
  | neighbour above =>
    refine ⟨h.nonneg, h.le, ?_, ?_⟩
    · intro i h0 hi
      have hi : i < t.totalVmas := hi
      simp only [Table.next, set]
      rw [Function.update_of_ne (by omega)]
      exact h.live i h0 hi
    · intro i hi hmax
      simp only [Table.next, set]
      rw [Function.update_of_ne (by omega)]
      exact h.dead i hi hmax

/-- In every state that a run of such calls reaches, `umunmap` edits the table exactly if and only
if it is such a call. -/
theorem umunmap_edits_iff {t₀ : Table} {cs : List Call} (hblank : t₀.Blank)
    (run : Run (guarded Exact (stepOf step)) t₀ cs t) (hlo : -2 ^ 31 ≤ addr) (hhi : addr < 2 ^ 31)
    (hpos : 0 < length) (hmax : length < 2 ^ 31) :
    t.Edits addr length filewrite ↔ t.EditsOk addr length filewrite := by
  have hcleared : t.Cleared := by
    refine run.invariant Cleared hblank.cleared ?_
    rintro u c v hu ⟨hc, hstep⟩
    cases hstep
    exact hu.next hc
  exact ⟨fun hedits => hedits.ok hcleared hlo hhi hpos hmax,
    fun hok => hok.edits hcleared hlo hhi hpos hmax⟩

theorem freshTable_blank : freshTable.Blank := ⟨rfl, fun _ _ _ => rfl⟩

/-- A page, three pages and a page are mapped, and the first of the three is unmapped. -/
def threeEntries : List Call :=
  [mapPage, .ummap 0 12288 0 mapPrivate 0 0, mapPage, .umunmap (mmapBase + 0x1000) 4096 0]

/-- The theorem at these calls: another page of the second entry, or the last entry, can be unmapped
now, but the first entry cannot. -/
theorem umunmap_edits_iff_three_entries :
    ∃ t, Run (guarded Exact (stepOf step)) freshTable threeEntries t ∧ t.totalVmas = 3 ∧
      t.Edits (mmapBase + 0x2000) 4096 0 ∧ t.Edits (mmapBase + 0x4000) 4096 0 ∧
      ¬ t.Edits mmapBase 4096 0 := by
  have hobs : (runOf (fun t c => if t.Exact c then step t c else none) freshTable
      threeEntries).map (fun t => (t.totalVmas, decide (t.EditsOk (mmapBase + 0x2000) 4096 0),
        decide (t.EditsOk (mmapBase + 0x4000) 4096 0), decide (t.EditsOk mmapBase 4096 0))) =
      some (3, true, true, false) := by decide +kernel
  obtain ⟨t, ht, hfacts⟩ := Option.map_eq_some_iff.mp hobs
  simp only [Prod.mk.injEq, decide_eq_true_eq, decide_eq_false_iff_not] at hfacts
  obtain ⟨htotal, hsecond, hlast, hfirst⟩ := hfacts
  have hrun := run_guarded_of_runOf ht
  refine ⟨t, hrun, htotal, ?_, ?_, ?_⟩
  · exact (umunmap_edits_iff freshTable_blank hrun (by decide) (by decide) (by decide)
      (by decide)).mpr hsecond
  · exact (umunmap_edits_iff freshTable_blank hrun (by decide) (by decide) (by decide)
      (by decide)).mpr hlast
  · intro hedits
    exact hfirst ((umunmap_edits_iff freshTable_blank hrun (by decide) (by decide) (by decide)
      (by decide)).mp hedits)

/-- Calls of `ummap` and `umunmap`, and what other code does around the table. -/
def NoFault : Call → Prop
  | .pgft .. => False
  | .ummap .. | .umunmap .. | .ofile _ | .neighbour _ => True

/-- Two pages are mapped and the first one is unmapped: the second one is still in slot 1, behind
the live entries. -/
theorem umunmap_leaves_second_page :
    ¬ ∀ (t₀ t : Table) (cs : List Call) (addr length filewrite : Int), t₀.Blank →
      Run (guarded (fun _ => NoFault) (stepOf step)) t₀ cs t → -2 ^ 31 ≤ addr → addr < 2 ^ 31 →
        0 < length → length < 2 ^ 31 → t.Edits addr length filewrite := by
  intro hall
  have hrun : Run (guarded (fun _ => NoFault) (stepOf step)) freshTable [mapPage, mapPage]
      ((freshTable.next mapPage).next mapPage) :=
    (Run.nil.snoc ⟨trivial, rfl⟩).snoc ⟨trivial, rfl⟩
  have hedits := hall freshTable _ _ mmapBase 4096 0 freshTable_blank hrun (by decide) (by decide)
    (by decide) (by decide)
  have hcleared := hedits.cleared 0 (Int.le_refl 0) (by decide +kernel) (by decide +kernel)
    (by decide +kernel) 1 (by decide +kernel) (by decide)
  revert hcleared
  decide +kernel

-- the unmapped page is found once more
example : ((((freshTable.next mapPage).next mapPage).next (.umunmap mmapBase 4096 0)).next
    (.umunmap (mmapBase + 4096) 4096 0) |>.umunmap (mmapBase + 4096) 4096 0).1 = 0 := by
  decide +kernel

end Table

end Cs537.P5
