import Mathlib.Logic.Function.Basic

/-!
# Marks and owners

An allocator marks what it has given out, and its clients keep what they were given in places of
their own. `Exact` says that the marks tell the truth: each place holds one thing, each marked
thing is in one place, and nothing else is marked.
-/

namespace Cs537.Lib

variable {ι β : Type*} {marked marked' : β → Prop} {owns owns' : ι → β → Prop} {i : ι} {b : β}

/-- The marked things, and which place has which. -/
structure Exact (marked : β → Prop) (owns : ι → β → Prop) : Prop where
  sound : ∀ {i b}, owns i b → marked b
  place : ∀ {i j b}, owns i b → owns j b → i = j
  thing : ∀ {i b c}, owns i b → owns i c → b = c
  owner : ∀ {b}, marked b → ∃ i, owns i b

namespace Exact

theorem congr (h : Exact marked owns) (hmarked : ∀ b, marked' b ↔ marked b)
    (howns : ∀ i b, owns' i b ↔ owns i b) : Exact marked' owns' where
  sound ho := (hmarked _).mpr (h.sound ((howns _ _).mp ho))
  place ho ho' := h.place ((howns _ _).mp ho) ((howns _ _).mp ho')
  thing ho ho' := h.thing ((howns _ _).mp ho) ((howns _ _).mp ho')
  owner hb := by
    obtain ⟨i, hi⟩ := h.owner ((hmarked _).mp hb)
    exact ⟨i, (howns _ _).mpr hi⟩

/-- Something is given out, and goes to an empty place. -/
theorem add (h : Exact marked owns) (hfree : ¬ marked b) (hempty : ∀ c, ¬ owns i c)
    (hmarked : ∀ c, marked' c ↔ marked c ∨ c = b)
    (howns : ∀ j c, owns' j c ↔ owns j c ∨ (j = i ∧ c = b)) : Exact marked' owns' where
  sound ho := by
    rcases (howns _ _).mp ho with ho | ⟨-, rfl⟩
    · exact (hmarked _).mpr (.inl (h.sound ho))
    · exact (hmarked _).mpr (.inr rfl)
  place ho ho' := by
    rcases (howns _ _).mp ho with ho | ⟨rfl, rfl⟩
    · rcases (howns _ _).mp ho' with ho' | ⟨rfl, rfl⟩
      · exact h.place ho ho'
      · exact absurd (h.sound ho) hfree
    · rcases (howns _ _).mp ho' with ho' | ⟨rfl, -⟩
      · exact absurd (h.sound ho') hfree
      · rfl
  thing ho ho' := by
    rcases (howns _ _).mp ho with ho | ⟨rfl, rfl⟩
    · rcases (howns _ _).mp ho' with ho' | ⟨rfl, rfl⟩
      · exact h.thing ho ho'
      · exact absurd ho (hempty _)
    · rcases (howns _ _).mp ho' with ho' | ⟨-, rfl⟩
      · exact absurd ho' (hempty _)
      · rfl
  owner hb := by
    rcases (hmarked _).mp hb with hb | rfl
    · obtain ⟨j, hj⟩ := h.owner hb
      exact ⟨j, (howns _ _).mpr (.inl hj)⟩
    · exact ⟨i, (howns _ _).mpr (.inr ⟨rfl, rfl⟩)⟩

/-- Something is given back, and its place is empty. -/
theorem remove (h : Exact marked owns) (hb : owns i b) (hmarked : ∀ c, marked' c ↔ marked c ∧ c ≠ b)
    (howns : ∀ j c, owns' j c ↔ owns j c ∧ j ≠ i) : Exact marked' owns' where
  sound ho := by
    obtain ⟨ho, hne⟩ := (howns _ _).mp ho
    refine (hmarked _).mpr ⟨h.sound ho, ?_⟩
    rintro rfl
    exact hne (h.place ho hb)
  place ho ho' := h.place ((howns _ _).mp ho).1 ((howns _ _).mp ho').1
  thing ho ho' := h.thing ((howns _ _).mp ho).1 ((howns _ _).mp ho').1
  owner hc := by
    obtain ⟨hc, hne⟩ := (hmarked _).mp hc
    obtain ⟨j, hj⟩ := h.owner hc
    refine ⟨j, (howns _ _).mpr ⟨hj, ?_⟩⟩
    rintro rfl
    exact hne (h.thing hj hb)

end Exact

end Cs537.Lib
