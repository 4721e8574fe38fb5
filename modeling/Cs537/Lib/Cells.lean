import Mathlib.Data.List.Perm.Subperm
import Mathlib.Logic.Function.Basic

/-!
# Linked cells

A memory maps addresses to cells and every cell names the address that comes next, or
none. `Seg` describes a stretch of such a list. The lemmas say what a write of one cell
does to the stretches that the cell is on, and that a list that ends visits no cell twice.
-/

namespace Cs537.Lib

variable {α : Type*} {next : α → Option Nat} {mem mem' : Nat → Option α}

/-- Following `next` from `p` visits the cells at `l`, in order, and arrives at `q`. -/
def Seg (next : α → Option Nat) (mem : Nat → Option α) :
    Option Nat → List Nat → Option Nat → Prop
  | p, [], q => p = q
  | p, a :: l, q => p = some a ∧ ∃ c, mem a = some c ∧ Seg next mem (next c) l q

namespace Seg

theorem append_iff {p q : Option Nat} {l l' : List Nat} :
    Seg next mem p (l ++ l') q ↔ ∃ r, Seg next mem p l r ∧ Seg next mem r l' q := by
  induction l generalizing p with
  | nil => simp [Seg]
  | cons a l ih =>
    constructor
    · rintro ⟨rfl, c, hc, hseg⟩
      obtain ⟨r, h1, h2⟩ := ih.mp hseg
      exact ⟨r, ⟨rfl, c, hc, h1⟩, h2⟩
    · rintro ⟨r, ⟨rfl, c, hc, h1⟩, h2⟩
      exact ⟨rfl, c, hc, ih.mpr ⟨r, h1, h2⟩⟩

/-- A stretch only depends on where the cells on it point. -/
theorem congr {p q : Option Nat} {l : List Nat}
    (same : ∀ a ∈ l, (mem' a).map next = (mem a).map next)
    (h : Seg next mem p l q) : Seg next mem' p l q := by
  induction l generalizing p with
  | nil => exact h
  | cons a l ih =>
    obtain ⟨rfl, c, hc, hseg⟩ := h
    have ha := same a List.mem_cons_self
    rw [hc, Option.map_some, Option.map_eq_some_iff] at ha
    obtain ⟨c', hc', hnext⟩ := ha
    refine ⟨rfl, c', hc', ?_⟩
    rw [hnext]
    exact ih (fun b hb => same b (List.mem_cons_of_mem a hb)) hseg

theorem cell_of_mem {p q : Option Nat} {l : List Nat} (h : Seg next mem p l q) {a : Nat}
    (ha : a ∈ l) : ∃ c, mem a = some c := by
  induction l generalizing p with
  | nil => simp at ha
  | cons b l ih =>
    obtain ⟨-, c, hc, hseg⟩ := h
    rcases List.mem_cons.mp ha with rfl | ha
    · exact ⟨c, hc⟩
    · exact ih hseg ha

/-- The cells on a list that ends are determined by where it starts. -/
theorem unique {p : Option Nat} {l l' : List Nat} (h : Seg next mem p l none)
    (h' : Seg next mem p l' none) : l = l' := by
  induction l generalizing p l' with
  | nil =>
    cases l' with
    | nil => rfl
    | cons a l' =>
      have hp : p = none := h
      rw [hp] at h'
      exact absurd h'.1 (by simp)
  | cons a l ih =>
    obtain ⟨rfl, c, hc, hseg⟩ := h
    cases l' with
    | nil => exact absurd h' (by simp [Seg])
    | cons b l' =>
      obtain ⟨hb, c', hc', hseg'⟩ := h'
      obtain rfl : a = b := Option.some.inj hb
      rw [hc] at hc'
      obtain rfl := Option.some.inj hc'
      rw [ih hseg hseg']

/-- A list that ends visits no cell twice. -/
theorem nodup {p : Option Nat} {l : List Nat} (h : Seg next mem p l none) : l.Nodup := by
  induction l generalizing p with
  | nil => exact List.nodup_nil
  | cons a l ih =>
    have hwhole := h
    obtain ⟨rfl, c, hc, hseg⟩ := h
    refine List.nodup_cons.mpr ⟨?_, ih hseg⟩
    intro ha
    obtain ⟨l1, l2, rfl⟩ := List.append_of_mem ha
    obtain ⟨r, -, hloop⟩ := append_iff.mp hseg
    obtain rfl : r = some a := hloop.1
    have hlen := congrArg List.length (hwhole.unique hloop)
    simp only [List.length_cons, List.length_append] at hlen
    omega

/-- Writing a cell that is not on a stretch does not change the stretch. -/
theorem update_of_notMem {p q : Option Nat} {l : List Nat} {a : Nat} (c : α) (ha : a ∉ l)
    (h : Seg next mem p l q) : Seg next (Function.update mem a (some c)) p l q := by
  refine h.congr ?_
  intro b hb
  have hba : b ≠ a := fun e => ha (e ▸ hb)
  rw [Function.update_of_ne hba]

/-- Pointing the last cell of a stretch elsewhere. -/
theorem redirect {p q : Option Nat} {l : List Nat} {a : Nat} (c : α) (ha : a ∉ l)
    (h : Seg next mem p (l ++ [a]) q) :
    Seg next (Function.update mem a (some c)) p (l ++ [a]) (next c) := by
  obtain ⟨r, hl, hr, -⟩ := append_iff.mp h
  exact append_iff.mpr ⟨r, hl.update_of_notMem c ha, hr, c, by simp, rfl⟩

end Seg

/-- A list of distinct addresses below a bound is no longer than the bound. -/
theorem length_le_of_nodup_of_lt {l : List Nat} {n : Nat} (hl : l.Nodup)
    (hlt : ∀ a ∈ l, a < n) : l.length ≤ n := by
  have hsub : l ⊆ List.range n := fun a ha => List.mem_range.mpr (hlt a ha)
  have hle := (List.subperm_of_subset hl hsub).length_le
  simpa using hle

end Cs537.Lib
