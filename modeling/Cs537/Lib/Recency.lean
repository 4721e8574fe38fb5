import Mathlib.Data.List.Nodup
import Mathlib.Data.List.Induction

/-!
# Least recently used

Whatever happens to an entry moves it to the front of a list. The list is then the history with the
newest entry first and each entry once, and a search from the end finds the one whose last time is
longest ago.
-/

namespace Cs537.Lib

variable {α : Type*} {a b : α} {h : List α}

/-- The last time of `a` is before the last time of `b`. -/
def LastBefore (h : List α) (a b : α) : Prop := ∃ h₁ h₂, h = h₁ ++ a :: h₂ ∧ a ∉ h₂ ∧ b ∈ h₂

theorem LastBefore.snoc {c : α} (hab : LastBefore h a b) (hc : a ≠ c) :
    LastBefore (h ++ [c]) a b := by
  obtain ⟨h₁, h₂, rfl, ha, hb⟩ := hab
  refine ⟨h₁, h₂ ++ [c], List.append_assoc .., ?_, List.mem_append_left _ hb⟩
  intro hmem
  rcases List.mem_append.mp hmem with hmem | hmem
  · exact ha hmem
  · exact hc (List.mem_singleton.mp hmem)

/-- An entry has a last time. -/
theorem exists_last (ha : a ∈ h) : ∃ h₁ h₂, h = h₁ ++ a :: h₂ ∧ a ∉ h₂ := by
  obtain ⟨s, t, hsplit, hs⟩ := List.eq_append_cons_of_mem (List.mem_reverse.mpr ha)
  refine ⟨t.reverse, s.reverse, ?_, fun hmem => hs (List.mem_reverse.mp hmem)⟩
  have hreverse := congrArg List.reverse hsplit
  simpa using hreverse

theorem lastBefore_snoc (ha : a ∈ h) (hne : a ≠ b) : LastBefore (h ++ [b]) a b := by
  obtain ⟨h₁, h₂, rfl, hlast⟩ := exists_last ha
  refine ⟨h₁, h₂ ++ [b], List.append_assoc .., ?_, ?_⟩
  · intro hmem
    rcases List.mem_append.mp hmem with hmem | hmem
    · exact hlast hmem
    · exact hne (List.mem_singleton.mp hmem)
  · exact List.mem_append_right h₂ (List.mem_singleton_self b)

variable [DecidableEq α]

/-- The entries of a history, the newest first and each once. -/
def recent (h : List α) : List α := h.foldl (fun l a => a :: l.erase a) []

theorem recent_snoc (h : List α) (a : α) : recent (h ++ [a]) = a :: (recent h).erase a := by
  rw [recent, List.foldl_append]
  rfl

theorem nodup_recent (h : List α) : (recent h).Nodup := by
  induction h using List.reverseRecOn with
  | nil => exact List.nodup_nil
  | append_singleton h a ih =>
    rw [recent_snoc]
    exact List.nodup_cons.mpr ⟨ih.not_mem_erase, ih.erase a⟩

theorem mem_recent : b ∈ recent h ↔ b ∈ h := by
  induction h using List.reverseRecOn with
  | nil => exact Iff.rfl
  | append_singleton h a ih =>
    rw [recent_snoc, List.mem_cons, List.mem_append, List.mem_singleton]
    by_cases hb : b = a
    · simp only [hb, true_or, or_true]
    · rw [List.mem_erase_of_ne hb, ih]
      exact or_comm

/-- In the list an entry stands behind those that are newer. -/
theorem pairwise_recent (h : List α) : (recent h).Pairwise fun b a => LastBefore h a b := by
  induction h using List.reverseRecOn with
  | nil => exact .nil
  | append_singleton h c ih =>
    rw [recent_snoc, List.pairwise_cons]
    have hnodup := nodup_recent h
    have hne : ∀ a ∈ (recent h).erase c, a ≠ c := by
      rintro a ha rfl
      exact hnodup.not_mem_erase ha
    refine ⟨fun a ha => ?_, ?_⟩
    · exact lastBefore_snoc (mem_recent.mp (List.mem_of_mem_erase ha)) (hne a ha)
    · refine (ih.sublist List.erase_sublist).imp_of_mem fun _ ha hlast => ?_
      exact hlast.snoc (hne _ ha)

theorem recent_of_nodup : ∀ {h : List α}, h.Nodup → recent h = h.reverse := by
  intro h
  induction h using List.reverseRecOn with
  | nil => exact fun _ => rfl
  | append_singleton h a ih =>
    intro hnodup
    obtain ⟨hh, -, hdisjoint⟩ := List.nodup_append.mp hnodup
    have ha : a ∉ h := fun hmem => hdisjoint a hmem a (List.mem_singleton_self a) rfl
    rw [recent_snoc, ih hh, List.erase_of_not_mem fun hmem => ha (List.mem_reverse.mp hmem),
      List.reverse_append]
    rfl

/-- The search from the end finds the entry whose last time is longest ago. -/
theorem lastBefore_of_find {p : α → Bool} (hfind : (recent h).reverse.find? p = some a) (hb : b ∈ h)
    (hpb : p b = true) (hne : b ≠ a) : LastBefore h a b := by
  obtain ⟨-, l, l', hsplit, hl⟩ := List.find?_eq_some_iff_append.mp hfind
  have hrecent : recent h = l'.reverse ++ a :: l.reverse := by
    have hreverse := congrArg List.reverse hsplit
    simpa using hreverse
  have hmem := mem_recent.mpr hb
  rw [hrecent, List.mem_append, List.mem_cons] at hmem
  have hpairs := pairwise_recent h
  rw [hrecent, List.pairwise_append] at hpairs
  rcases hmem with hmem | rfl | hmem
  · exact hpairs.2.2 b hmem a List.mem_cons_self
  · exact absurd rfl hne
  · have hno := hl b (List.mem_reverse.mp hmem)
    rw [hpb] at hno
    cases hno

end Cs537.Lib
