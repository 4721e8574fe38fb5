import Mathlib.Data.List.Sort
import Mathlib.Data.List.MinMax

/-!
# Stable priority queues

The purpose of a stable priority queue, stated on the list of its elements in arrival
order: the element to leave next is the earliest among those of maximal priority, which is
`List.argmax`. An implementation keeps its elements in the order in which they will leave;
`StableOf` relates that list to the arrival list. It is kept by inserting a new element in
front of the first one of smaller priority (`List.orderedInsert`) and by taking the first
element away.
-/

namespace Cs537.Lib

variable {α β : Type*} [LinearOrder β]

/-- An element goes in front of those of smaller priority. -/
def Outranks (prio : α → β) (a b : α) : Prop := prio b < prio a

instance (prio : α → β) : DecidableRel (Outranks prio) :=
  fun a b => inferInstanceAs (Decidable (prio b < prio a))

/-- `queue` holds the elements of `arrivals` by non-increasing priority, those of one
priority in arrival order. -/
structure StableOf (prio : α → β) (queue arrivals : List α) : Prop where
  sorted : queue.Pairwise fun a b => prio b ≤ prio a
  stable : ∀ p, queue.filter (prio · = p) = arrivals.filter (prio · = p)

namespace StableOf

variable {prio : α → β} {queue arrivals : List α} {a : α}

theorem nil : StableOf prio [] [] := ⟨.nil, fun _ => rfl⟩

/-- Inserting in front of the first element of smaller priority keeps the order. -/
theorem sorted_insert (a : α) (sorted : queue.Pairwise fun a b => prio b ≤ prio a) :
    (queue.orderedInsert (Outranks prio) a).Pairwise fun a b => prio b ≤ prio a := by
  induction queue with
  | nil => simp
  | cons b l ih =>
    obtain ⟨hb, hl⟩ := List.pairwise_cons.mp sorted
    rw [List.orderedInsert_cons]
    split
    · rename_i hab
      refine List.pairwise_cons.mpr ⟨?_, sorted⟩
      intro c hc
      rcases List.mem_cons.mp hc with rfl | hc
      · exact le_of_lt hab
      · exact (hb c hc).trans (le_of_lt hab)
    · rename_i hab
      refine List.pairwise_cons.mpr ⟨?_, ih hl⟩
      intro c hc
      rcases (List.mem_orderedInsert _).mp hc with rfl | hc
      · exact le_of_not_gt hab
      · exact hb c hc

/-- Among the elements of one priority the inserted one comes last. -/
theorem filter_insert (a : α) (p : β) (sorted : queue.Pairwise fun a b => prio b ≤ prio a) :
    (queue.orderedInsert (Outranks prio) a).filter (prio · = p) =
      (queue ++ [a]).filter (prio · = p) := by
  induction queue with
  | nil => simp
  | cons b l ih =>
    obtain ⟨hb, hl⟩ := List.pairwise_cons.mp sorted
    rw [List.orderedInsert_cons]
    split
    · rename_i hab
      by_cases hp : prio a = p
      · -- every element from here on has a smaller priority than `a`
        have hnone : (b :: l).filter (prio · = p) = [] := by
          rw [List.filter_eq_nil_iff]
          intro c hc
          have hca : prio c < prio a := by
            rcases List.mem_cons.mp hc with rfl | hc
            · exact hab
            · exact (hb c hc).trans_lt hab
          simpa [← hp] using hca.ne
        rw [List.filter_append, hnone]
        simp [hp, hnone]
      · rw [List.filter_append]
        simp [hp]
    · simp only [List.cons_append, List.filter_cons, ih hl]

theorem insert (h : StableOf prio queue arrivals) (a : α) :
    StableOf prio (queue.orderedInsert (Outranks prio) a) (arrivals ++ [a]) where
  sorted := sorted_insert a h.sorted
  stable p := by
    rw [filter_insert a p h.sorted, List.filter_append, List.filter_append, h.stable p]

/-- Only the priorities of the elements present matter. -/
theorem congr {prio' : α → β} (h : StableOf prio queue arrivals)
    (hq : ∀ a ∈ queue, prio' a = prio a) (ha : ∀ a ∈ arrivals, prio' a = prio a) :
    StableOf prio' queue arrivals where
  sorted := by
    refine h.sorted.imp_of_mem ?_
    intro a b hmem hmem' hle
    rwa [hq a hmem, hq b hmem']
  stable p := by
    have hfilter : ∀ l : List α, (∀ a ∈ l, prio' a = prio a) →
        l.filter (prio' · = p) = l.filter (prio · = p) := by
      intro l hl
      exact List.filter_congr fun a hmem => by rw [hl a hmem]
    rw [hfilter queue hq, hfilter arrivals ha, h.stable]

variable [DecidableEq α]

/-- Nothing is lost and nothing is there twice. -/
theorem perm (h : StableOf prio queue arrivals) : queue.Perm arrivals := by
  rw [List.perm_iff_count]
  intro a
  have hq := List.count_filter (p := (prio · = prio a)) (l := queue) (a := a) (by simp)
  have ha := List.count_filter (p := (prio · = prio a)) (l := arrivals) (a := a) (by simp)
  rw [← hq, ← ha, h.stable]

theorem mem_iff (h : StableOf prio queue arrivals) : a ∈ queue ↔ a ∈ arrivals :=
  h.perm.mem_iff

/-- The first element is the earliest arrival among those of maximal priority. -/
theorem head_argmax (h : StableOf prio (a :: queue) arrivals) :
    arrivals.argmax prio = some a := by
  obtain ⟨hmax, -⟩ := List.pairwise_cons.mp h.sorted
  rw [List.argmax_eq_some_iff]
  refine ⟨h.mem_iff.mp List.mem_cons_self, ?_, ?_⟩
  · intro b hb
    rcases List.mem_cons.mp (h.mem_iff.mpr hb) with rfl | hb
    · exact le_rfl
    · exact hmax b hb
  · intro b hb hab
    have hba : prio b = prio a := by
      refine le_antisymm ?_ hab
      rcases List.mem_cons.mp (h.mem_iff.mpr hb) with rfl | hb
      · exact le_rfl
      · exact hmax b hb
    have hfirst : arrivals.filter (prio · = prio a) =
        a :: queue.filter (prio · = prio a) := by
      rw [← h.stable]
      simp
    obtain ⟨front, rest, harr, hfront, -⟩ := List.filter_eq_cons_iff.mp hfirst
    have hbf : b ∉ front := fun hmem => hfront b hmem (by simp [hba])
    have haf : a ∉ front := fun hmem => hfront a hmem (by simp)
    rw [harr, List.idxOf_append_of_notMem haf, List.idxOf_append_of_notMem hbf]
    simp

/-- Taking the first element away from the queue and from the arrivals. -/
theorem tail (h : StableOf prio (a :: queue) arrivals) :
    StableOf prio queue (arrivals.erase a) where
  sorted := (List.pairwise_cons.mp h.sorted).2
  stable p := by
    have hp := h.stable p
    by_cases hap : prio a = p
    · have hfirst : arrivals.filter (prio · = p) = a :: queue.filter (prio · = p) := by
        rw [← hp]
        simp [hap]
      obtain ⟨front, rest, rfl, hfront, -, hrest⟩ := List.filter_eq_cons_iff.mp hfirst
      have haf : a ∉ front := fun hmem => hfront a hmem (by simp [hap])
      have hnone : front.filter (prio · = p) = [] := List.filter_eq_nil_iff.mpr hfront
      rw [List.erase_append_right _ haf, List.erase_cons_head, List.filter_append, hnone,
        List.nil_append, hrest]
    · have hq : (a :: queue).filter (prio · = p) = queue.filter (prio · = p) := by
        simp [hap]
      have ha : (arrivals.erase a).filter (prio · = p) = arrivals.filter (prio · = p) := by
        rw [← List.erase_filter, List.erase_of_not_mem]
        simp [hap]
      rw [ha, ← hp, hq]

end StableOf

end Cs537.Lib
