import Mathlib.Algebra.BigOperators.Group.Finset.Piecewise
import Mathlib.Algebra.Order.BigOperators.Group.Finset
import Mathlib.Data.Fintype.Basic
import Mathlib.Data.List.OfFn

/-!
# Reference counts

Objects with a counter each, and holders with a list each of the objects they hold. The counters
tally if each is the number of times its object is held. One holder at a time changes, so one rule
is enough: the counters tally again if each has changed by as much as the list of that holder. For
a holder with an array, overwriting one place changes the list by two entries at most.
-/

namespace Cs537.Lib

variable {ι α : Type*} [Fintype ι] [DecidableEq ι] [DecidableEq α]

/-- The counter of every object that is `counted` is the number of times the object is held. -/
def Tally (counted : α → Prop) (ref : α → Int) (held : ι → List α) : Prop :=
  ∀ a, counted a → ref a = ∑ i, ((held i).count a : Int)

namespace Tally

variable {counted : α → Prop} {ref ref' : α → Int} {held : ι → List α} {a : α}

/-- One holder changes what it holds. -/
theorem update (h : Tally counted ref held) (i : ι) {l : List α}
    (hchange : ∀ a, counted a → ref' a - ref a = l.count a - (held i).count a) :
    Tally counted ref' (Function.update held i l) := by
  intro a ha
  have hbefore := Finset.add_sum_erase Finset.univ (fun j => ((held j).count a : Int))
    (Finset.mem_univ i)
  have hafter := Finset.add_sum_erase Finset.univ
    (fun j => ((Function.update held i l j).count a : Int)) (Finset.mem_univ i)
  have hothers : ∑ j ∈ Finset.univ.erase i, ((Function.update held i l j).count a : Int) =
      ∑ j ∈ Finset.univ.erase i, ((held j).count a : Int) := by
    refine Finset.sum_congr rfl ?_
    intro j hj
    rw [Function.update_of_ne (Finset.ne_of_mem_erase hj)]
  have hself := hchange a ha
  rw [h a ha] at hself
  rw [← hafter, hothers]
  simp only [Function.update_self] at hbefore ⊢
  omega

omit [DecidableEq ι] in
/-- An object that is held has a positive counter. -/
theorem pos (h : Tally counted ref held) (ha : counted a) {i : ι} (hmem : a ∈ held i) :
    1 ≤ ref a := by
  have hone : 1 ≤ ((held i).count a : Int) := by
    have := List.count_pos_iff.mpr hmem
    omega
  have hsum : ((held i).count a : Int) ≤ ∑ j, ((held j).count a : Int) :=
    Finset.single_le_sum (fun j _ => Int.natCast_nonneg _) (Finset.mem_univ i)
  rw [h a ha]
  omega

end Tally

/-- How often an array holds an object after one of its places was overwritten. -/
theorem count_ofFn_update {n : Nat} (g : Fin n → α) (i : Fin n) (x a : α) :
    ((List.ofFn (Function.update g i x)).count a : Int) =
      (List.ofFn g).count a - (if g i = a then 1 else 0) + if x = a then 1 else 0 := by
  have hset : List.ofFn (Function.update g i x) = (List.ofFn g).set i x := by
    refine List.ext_getElem (by simp) ?_
    intro j h1 h2
    simp only [List.getElem_ofFn, List.getElem_set]
    by_cases hj : (i : Nat) = j
    · subst hj
      rw [if_pos rfl, Function.update_self]
    · rw [if_neg hj, Function.update_of_ne (fun h => hj (congrArg Fin.val h).symm)]
  have hlength : (i : Nat) < (List.ofFn g).length := by simp
  have hmem : g i = a → 0 < (List.ofFn g).count a := by
    rintro rfl
    exact List.count_pos_iff.mpr (List.mem_ofFn.mpr ⟨i, rfl⟩)
  rw [hset, List.count_set hlength]
  simp only [List.getElem_ofFn, Fin.eta, beq_iff_eq]
  by_cases hgi : g i = a
  · have := hmem hgi
    rw [if_pos hgi]
    split <;> omega
  · rw [if_neg hgi]
    split <;> omega

end Cs537.Lib
