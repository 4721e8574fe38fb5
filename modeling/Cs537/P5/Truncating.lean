import Mathlib.Data.List.Nodup
import Cs537.P5.Contents

/-!
# Truncating files

`itrunc` gives back every block of a file, those of its data and the block of addresses, and no
other; `bfree` does not panic there.
-/

namespace Cs537.P5

open Cs537.Lib

namespace Fs

variable {sb : Superblock} {s s' s₀ : Fs} {disk : Nat → Block} {files : FileMap} {i : Nat}
  {addrs : Addrs} {sh : Shape} {t : Slot} {ts gone : List Slot}

/-- Some places of file `i` have been given back, while their addresses are still there. -/
structure Freeing (sb : Superblock) (s₀ : Fs) (files : FileMap) (i : Nat) (s : Fs)
    (gone : List Slot) : Prop where
  metadata : ∀ b < sb.datastart, used sb s.disk b = true
  exact : Exact (Marked sb s.disk) fun p b => Owns s₀.disk files p b ∧ ¬ (p.1 = i ∧ p.2 ∈ gone)
  same : ∀ c, c < sb.bmapstart ∨ sb.datastart ≤ c → s.disk c = s₀.disk c
  logged : ∃ l, s.logged = s₀.logged ++ l ∧ ∀ c ∈ l, sb.bmapstart ≤ c ∧ c < sb.datastart

theorem freeing_start (h : Layout sb s.disk files) : Freeing sb s files i s [] where
  metadata := h.metadata
  exact := h.exact.congr (fun _ => Iff.rfl) fun _ _ =>
    and_iff_left fun hgone => absurd hgone.2 List.not_mem_nil
  same _ _ := rfl
  logged := ⟨[], (List.append_nil _).symm, fun _ hc => absurd hc List.not_mem_nil⟩

/-- A place that holds nothing. -/
theorem Freeing.skip (h : Freeing sb s₀ files i s gone) (hi : files i = some (addrs, sh))
    (ht : ¬ sh.Held t) : Freeing sb s₀ files i s (gone ++ [t]) where
  metadata := h.metadata
  same := h.same
  logged := h.logged
  exact := by
    refine h.exact.congr (fun _ => Iff.rfl) fun p b => and_congr_right fun hown => ?_
    refine not_congr (and_congr_right fun hp => ?_)
    rw [List.mem_append, List.mem_singleton]
    refine or_iff_left ?_
    rintro hpt
    obtain ⟨addrs₁, sh₁, hfile, hheld, -⟩ := hown
    rw [hp, hi] at hfile
    cases hfile
    exact ht (hpt ▸ hheld)

/-- A block is given back. -/
theorem Freeing.bfree (h : Freeing sb s₀ files i s gone) (hi : files i = some (addrs, sh))
    (ht : sh.Held t) (hnew : t ∉ gone) : ∃ s',
      bfree sb s (slotAddr s₀.disk addrs t).toNat = some s' ∧
        Freeing sb s₀ files i s' (gone ++ [t]) := by
  have hown : Owns s₀.disk files (i, t) (slotAddr s₀.disk addrs t).toNat := Layout.owns hi ht
  have hown' : Owns s₀.disk files (i, t) (slotAddr s₀.disk addrs t).toNat ∧ ¬ (i = i ∧ t ∈ gone) :=
    ⟨hown, fun hgone => hnew hgone.2⟩
  have hmarked := h.exact.sound (i := (i, t)) hown'
  obtain ⟨s', hs'⟩ := Option.isSome_iff_exists.mp (bfree_isSome.mpr hmarked.2.2)
  have hrel := released_bfree hs'
  have hge := hmarked.1
  refine ⟨s', hs', fun b hb => ?_, ?_, fun c hc => ?_, ?_⟩
  · rw [hrel.used b, if_neg (by omega)]
    exact h.metadata b hb
  · refine h.exact.remove (i := (i, t)) hown' (fun c => ?_) fun p c => ?_
    · unfold Marked
      rw [hrel.used c]
      by_cases hc : c = (slotAddr s₀.disk addrs t).toNat
      · rw [if_pos hc]
        exact iff_of_false (fun hm => Bool.false_ne_true hm.2.2) fun hm => hm.2 hc
      · rw [if_neg hc]
        exact (and_iff_left hc).symm
    · rw [and_assoc]
      refine and_congr_right fun _ => ?_
      rw [List.mem_append, List.mem_singleton, and_or_left, not_or]
      refine and_congr_right fun _ => not_congr ?_
      exact ⟨fun hp => Prod.ext hp.1 hp.2, fun hp => ⟨congrArg Prod.fst hp, congrArg Prod.snd hp⟩⟩
  · have hblock := bblock_lt hmarked.2.1
    rw [hrel.others c (by omega)]
    exact h.same c hc
  · obtain ⟨l, hlogged, hl⟩ := h.logged
    refine ⟨l ++ [sb.bblock (slotAddr s₀.disk addrs t).toNat], ?_, fun c hc => ?_⟩
    · rw [hrel.logged, hlogged, List.append_assoc]
    · rcases List.mem_append.mp hc with hc | hc
      · exact hl c hc
      · rw [List.mem_singleton.mp hc]
        exact bblock_lt hmarked.2.1

/-- All places of a list are given back. -/
theorem Freeing.freeAll (hlay : Layout sb s₀.disk files) (hi : files i = some (addrs, sh)) :
    ∀ ts (s : Fs) gone, Freeing sb s₀ files i s gone → (∀ t ∈ ts, t.Real ∧ t ∉ gone) →
      ts.Nodup → ∃ s', freeAll sb s (ts.map (slotAddr s₀.disk addrs)) = some s' ∧
        Freeing sb s₀ files i s' (gone ++ ts) := by
  intro ts
  induction ts with
  | nil =>
    intro s gone h _ _
    exact ⟨s, rfl, by rwa [List.append_nil]⟩
  | cons t ts ih =>
    intro s gone h hts hnodup
    obtain ⟨hnot, hnodup⟩ := List.nodup_cons.mp hnodup
    obtain ⟨hreal, hnew⟩ := hts t List.mem_cons_self
    have hts' : ∀ u ∈ ts, u.Real ∧ u ∉ gone ++ [t] := by
      intro u hu
      obtain ⟨hureal, hugone⟩ := hts u (List.mem_cons_of_mem _ hu)
      refine ⟨hureal, fun hmem => ?_⟩
      rcases List.mem_append.mp hmem with hold | hlast
      · exact hugone hold
      · rw [List.mem_singleton] at hlast
        exact hnot (hlast ▸ hu)
    rw [List.map_cons]
    unfold Fs.freeAll
    rw [List.append_cons]
    by_cases hzero : slotAddr s₀.disk addrs t = 0
    · have hempty : ¬ sh.Held t := fun hheld => hlay.ne_zero_of_held hi hheld hzero
      rw [if_pos hzero]
      exact ih s _ (h.skip hi hempty) hts' hnodup
    · obtain ⟨s₁, hs₁, hfreeing⟩ := h.bfree hi (hlay.held_of_ne_zero hi hreal hzero) hnew
      rw [if_neg hzero, hs₁, Option.bind_some]
      exact ih s₁ _ hfreeing hts' hnodup

/-- The places of the addresses in an inode. -/
def directSlots : List Slot := (List.range 12).map .data

/-- The places in the block of addresses. -/
def tableSlots : List Slot := (List.range 128).map fun k => .data (12 + k)

theorem mem_directSlots {k : Nat} : .data k ∈ directSlots ↔ k < 12 := by
  unfold directSlots
  simp

theorem mem_tableSlots {k : Nat} : .data k ∈ tableSlots ↔ 12 ≤ k ∧ k < maxFile := by
  unfold tableSlots maxFile
  simp only [List.mem_map, List.mem_range, Slot.data.injEq]
  constructor
  · rintro ⟨j, hj, rfl⟩
    omega
  · rintro ⟨hlo, hhi⟩
    exact ⟨k - 12, by omega, by omega⟩

theorem table_notMem : Slot.table ∉ directSlots ∧ Slot.table ∉ tableSlots := by
  unfold directSlots tableSlots
  simp

theorem nodup_slots : directSlots.Nodup ∧ tableSlots.Nodup := by
  refine ⟨List.Nodup.map (fun a b h => Slot.data.inj h) List.nodup_range,
    List.Nodup.map (fun a b h => ?_) List.nodup_range⟩
  have heq := Slot.data.inj h
  omega

theorem map_directSlots (disk : Nat → Block) (addrs : Addrs) :
    (List.finRange 12).map (fun k => addrs k.castSucc) = directSlots.map (slotAddr disk addrs) := by
  unfold directSlots
  rw [← List.map_coe_finRange_eq_range, List.map_map, List.map_map]
  refine List.map_congr_left fun k _ => ?_
  exact (slotAddr_direct disk addrs k.isLt).symm

theorem map_tableSlots (disk : Nat → Block) (hne : addrs 12 ≠ 0) :
    (List.range 128).map (disk (addrs 12).toNat).word = tableSlots.map (slotAddr disk addrs) := by
  unfold tableSlots
  rw [List.map_map]
  refine List.map_congr_left fun k _ => ?_
  rw [Function.comp_apply, slotAddr_indirect _ _ (by omega), if_neg hne, Nat.add_sub_cancel_left]

/-- All blocks of a file are given back. -/
theorem Freeing.finish (hlay : Layout sb s₀.disk files) (hi : files i = some (addrs, sh))
    (h : Freeing sb s₀ files i s gone) (hall : ∀ t, sh.Held t → t ∈ gone) :
    Layout sb s.disk (setFile files i (fun _ => 0) (.of 0)) where
  metadata := h.metadata
  exact := by
    refine h.exact.congr (fun _ => Iff.rfl) fun p b => ?_
    obtain ⟨j, t⟩ := p
    unfold Owns setFile
    dsimp only
    by_cases hj : j = i
    · subst hj
      rw [Function.update_self]
      refine iff_of_false ?_ ?_
      · rintro ⟨addrs₁, sh₁, hfile, hheld, -⟩
        cases hfile
        cases t with
        | data k => exact Nat.not_lt_zero k hheld
        | table => cases hheld
      · rintro ⟨⟨addrs₁, sh₁, hfile, hheld, -⟩, hnot⟩
        rw [hi] at hfile
        cases hfile
        exact hnot ⟨rfl, hall t hheld⟩
    · rw [Function.update_of_ne hj, and_iff_left fun hgone => hj hgone.1]
      refine exists_congr fun addrs₁ => exists_congr fun sh₁ => and_congr_right fun hfile => ?_
      rw [slotAddr_congr fun hne =>
        h.same _ (.inr (hlay.exact.sound (hlay.owns_table hfile hne)).1)]
  shaped j addrs₁ sh₁ hfile := by
    unfold setFile at hfile
    by_cases hj : j = i
    · subst hj
      rw [Function.update_self] at hfile
      cases hfile
      exact shaped_empty s.disk
    · rw [Function.update_of_ne hj] at hfile
      have hold := hlay.shaped j addrs₁ sh₁ hfile
      refine ⟨hold.le, hold.table, fun t ht hheld => ?_⟩
      rw [slotAddr_congr fun hne =>
        h.same _ (.inr (hlay.exact.sound (hlay.owns_table hfile hne)).1)]
      exact hold.empty t ht hheld

/-- `itrunc` empties a file and does not panic. -/
theorem itrunc_some {n : Nat} {ip : Dinode} (hlay : Layout sb s.disk files)
    (hi : files i = some (ip.addrs, .of n)) (inum : Nat) :
    ∃ s', itrunc sb s inum ip = some (iupdate sb s' inum { ip with addrs := fun _ => 0, size := 0 },
        { ip with addrs := fun _ => 0, size := 0 }) ∧
      Layout sb s'.disk (setFile files i (fun _ => 0) (.of 0)) ∧
      (∀ c, c < sb.bmapstart ∨ sb.datastart ≤ c → s'.disk c = s.disk c) ∧
      ∃ l, s'.logged = s.logged ++ l ∧ ∀ c ∈ l, sb.bmapstart ≤ c ∧ c < sb.datastart := by
  have hle := (hlay.shaped i _ _ hi).le
  have hreal : ∀ t ∈ directSlots, t.Real ∧ t ∉ ([] : List Slot) := by
    intro t ht
    refine ⟨?_, List.not_mem_nil⟩
    cases t with
    | table => trivial
    | data k => exact Nat.lt_trans (mem_directSlots.mp ht) (by decide)
  obtain ⟨s₁, hs₁, h₁⟩ := Freeing.freeAll hlay hi _ s [] (freeing_start hlay) hreal
    nodup_slots.1
  rw [← map_directSlots] at hs₁
  rw [List.nil_append] at h₁
  unfold itrunc
  rw [hs₁, Option.bind_some]
  dsimp only
  by_cases hzero : ip.addrs 12 = 0
  · refine ⟨s₁, by rw [if_pos hzero, Option.map_some], h₁.finish hlay hi fun t ht => ?_, h₁.same,
      h₁.logged⟩
    -- without a block of addresses there are no other places
    have htable : ¬ 12 < n := fun hlt =>
      hlay.ne_zero_of_held (t := .table) hi (decide_eq_true hlt) hzero
    cases t with
    | table => exact absurd (of_decide_eq_true ht) htable
    | data k =>
      have hk : k < n := ht
      exact mem_directSlots.mpr (by omega)
  · have hheld : (Shape.of n).Held .table := hlay.held_of_ne_zero (t := .table) hi trivial hzero
    have hsame : s₁.disk (ip.addrs 12).toNat = s.disk (ip.addrs 12).toNat :=
      h₁.same _ (.inr (hlay.exact.sound (hlay.owns_table hi hzero)).1)
    have hreal' : ∀ t ∈ tableSlots, t.Real ∧ t ∉ directSlots := by
      intro t ht
      cases t with
      | table => exact ⟨trivial, table_notMem.1⟩
      | data k =>
        have hk := mem_tableSlots.mp ht
        exact ⟨hk.2, fun hmem => absurd (mem_directSlots.mp hmem) (Nat.not_lt_of_le hk.1)⟩
    obtain ⟨s₂, hs₂, h₂⟩ := Freeing.freeAll hlay hi _ s₁ _ h₁ hreal' nodup_slots.2
    rw [← map_tableSlots _ hzero] at hs₂
    have hnew : Slot.table ∉ directSlots ++ tableSlots := by
      rw [List.mem_append, not_or]
      exact table_notMem
    obtain ⟨s₃, hs₃, h₃⟩ := h₂.bfree hi hheld hnew
    have hs₃' : bfree sb s₂ (ip.addrs 12).toNat = some s₃ := hs₃
    refine ⟨s₃, ?_, h₃.finish hlay hi fun t ht => ?_, h₃.same, h₃.logged⟩
    · rw [if_neg hzero, hsame, hs₂, Option.bind_some, hs₃', Option.map_some]
    · cases t with
      | table => exact List.mem_append_right _ (List.mem_singleton.mpr rfl)
      | data k =>
        have hk : k < n := ht
        refine List.mem_append_left _ (List.mem_append.mpr ?_)
        rcases Nat.lt_or_ge k 12 with hlt | hge
        · exact .inl (mem_directSlots.mpr hlt)
        · exact .inr (mem_tableSlots.mpr ⟨hge, Nat.lt_of_lt_of_le hk hle⟩)

end Fs

end Cs537.P5
