import Mathlib.Data.List.Nodup
import Mathlib.Logic.Function.Basic

/-!
# Rings of linked nodes

Nodes that are linked both ways in a ring through a head, which is `none`. `Holds` says which list
the ring is, from the head on. Nodes are put in behind the head and taken out anywhere, and loops
follow the links in either direction.
-/

namespace Cs537.Lib

/-- The two links of every node. -/
structure Links (ι : Type*) where
  next : Option ι → Option ι
  prev : Option ι → Option ι

namespace Links

variable {ι : Type*} {k k' : Links ι} {x y : Option ι} {a b : ι} {l l' : List ι}

/-- From `x` over the nodes of the list to `y`, all neighbours are linked both ways. -/
def Path (k : Links ι) (x : Option ι) : List ι → Option ι → Prop
  | [], y => k.next x = y ∧ k.prev y = x
  | a :: l, y => (k.next x = some a ∧ k.prev (some a) = x) ∧ k.Path (some a) l y

/-- The ring is this list. -/
structure Holds (k : Links ι) (l : List ι) : Prop where
  path : k.Path none l none
  nodup : l.Nodup

/-- A path depends on the links forward from its nodes and `x`, and backward from its nodes and
`y`. -/
theorem Path.congr (h : k.Path x l y) (hx : k'.next x = k.next x) (hy : k'.prev y = k.prev y)
    (hnext : ∀ a ∈ l, k'.next (some a) = k.next (some a))
    (hprev : ∀ a ∈ l, k'.prev (some a) = k.prev (some a)) : k'.Path x l y := by
  induction l generalizing x with
  | nil => exact ⟨hx.trans h.1, hy.trans h.2⟩
  | cons a l ih =>
    obtain ⟨⟨hxa, hax⟩, hrest⟩ := h
    refine ⟨⟨hx.trans hxa, (hprev a List.mem_cons_self).trans hax⟩, ?_⟩
    exact ih hrest (hnext a List.mem_cons_self) (fun c hc => hnext c (List.mem_cons_of_mem a hc))
      fun c hc => hprev c (List.mem_cons_of_mem a hc)

theorem path_append : ∀ {l : List ι} {x : Option ι}, k.Path x (l ++ a :: l') y ↔
    k.Path x l (some a) ∧ k.Path (some a) l' y := by
  intro l
  induction l with
  | nil => exact fun {x} => Iff.rfl
  | cons b l ih =>
    intro x
    exact (and_congr_right fun _ => ih).trans and_assoc.symm

/-- The nodes before and behind `a`. -/
theorem Path.neighbours (h : k.Path x (l ++ a :: l') y) :
    (k.prev (some a) = x ∨ ∃ c ∈ l, k.prev (some a) = some c) ∧
      (k.next (some a) = y ∨ ∃ c ∈ l', k.next (some a) = some c) := by
  constructor
  · induction l generalizing x with
    | nil => exact .inl h.1.2
    | cons b l ih =>
      rcases ih h.2 with hprev | ⟨c, hc, hprev⟩
      · exact .inr ⟨b, List.mem_cons_self, hprev⟩
      · exact .inr ⟨c, List.mem_cons_of_mem b hc, hprev⟩
  · obtain ⟨-, hrest⟩ := path_append.mp h
    cases l' with
    | nil => exact .inl hrest.1
    | cons d l' => exact .inr ⟨d, List.mem_cons_self, hrest.1.1⟩

/-! ## Putting in and taking out -/

section

variable [DecidableEq ι]

def setNext (k : Links ι) (x y : Option ι) : Links ι :=
  { k with next := Function.update k.next x y }

def setPrev (k : Links ι) (x y : Option ι) : Links ι :=
  { k with prev := Function.update k.prev x y }

/-- Node `a` behind the head. -/
def insertFront (k : Links ι) (a : ι) : Links ι :=
  let k := k.setNext (some a) (k.next none)
  let k := k.setPrev (some a) none
  let k := k.setPrev (k.next none) (some a)
  k.setNext none (some a)

/-- The neighbours of `a` become neighbours. -/
def unlink (k : Links ι) (a : ι) : Links ι :=
  let k := k.setPrev (k.next (some a)) (k.prev (some a))
  k.setNext (k.prev (some a)) (k.next (some a))

theorem insertFront_next (k : Links ι) (a : ι) (x : Option ι) : (k.insertFront a).next x =
    if x = none then some a else if x = some a then k.next none else k.next x := by
  simp only [insertFront, setNext, setPrev, Function.update_apply]

theorem insertFront_prev (k : Links ι) (a : ι) (x : Option ι) : (k.insertFront a).prev x =
    if x = k.next none then some a else if x = some a then none else k.prev x := by
  simp only [insertFront, setNext, setPrev, Function.update_apply, reduceCtorEq, if_false]

theorem Holds.insertFront (h : k.Holds l) (ha : a ∉ l) : (k.insertFront a).Holds (a :: l) := by
  have hne : ∀ {c}, c ∈ l → some c ≠ some a := by
    rintro c hc heq
    cases heq
    exact ha hc
  refine ⟨?_, List.nodup_cons.mpr ⟨ha, h.nodup⟩⟩
  cases l with
  | nil =>
    have hnext : k.next none = none := h.path.1
    refine ⟨⟨?_, ?_⟩, ?_, ?_⟩
    · rw [insertFront_next, if_pos rfl]
    · rw [insertFront_prev, hnext, if_neg nofun, if_pos rfl]
    · rw [insertFront_next, if_neg nofun, if_pos rfl, hnext]
    · rw [insertFront_prev, hnext, if_pos rfl]
  | cons b l =>
    obtain ⟨⟨hnext, hprev⟩, hrest⟩ := h.path
    have hb := hne List.mem_cons_self
    have hbl : ∀ c ∈ l, some c ≠ some b := by
      rintro c hc heq
      cases heq
      exact (List.nodup_cons.mp h.nodup).1 hc
    refine ⟨⟨?_, ?_⟩, ⟨?_, ?_⟩, hrest.congr ?_ ?_ (fun c hc => ?_) fun c hc => ?_⟩
    · rw [insertFront_next, if_pos rfl]
    · rw [insertFront_prev, hnext, if_neg hb.symm, if_pos rfl]
    · rw [insertFront_next, if_neg nofun, if_pos rfl, hnext]
    · rw [insertFront_prev, hnext, if_pos rfl]
    · rw [insertFront_next, if_neg nofun, if_neg hb]
    · rw [insertFront_prev, hnext, if_neg nofun, if_neg nofun]
    · rw [insertFront_next, if_neg nofun, if_neg (hne (List.mem_cons_of_mem b hc))]
    · rw [insertFront_prev, hnext, if_neg (hbl c hc), if_neg (hne (List.mem_cons_of_mem b hc))]

/-- Nodes put in one after another. -/
theorem Holds.foldl_insertFront : ∀ {l' l : List ι} {k : Links ι}, k.Holds l → (l' ++ l).Nodup →
    (l'.foldl Links.insertFront k).Holds (l'.reverse ++ l) := by
  intro l'
  induction l' with
  | nil => exact fun h _ => h
  | cons a l' ih =>
    intro l k h hnodup
    obtain ⟨ha, hrest⟩ := List.nodup_cons.mp hnodup
    have hnext := h.insertFront fun hmem => ha (List.mem_append_right l' hmem)
    rw [List.foldl_cons, List.reverse_cons, List.append_assoc]
    exact ih hnext (List.nodup_middle.mpr hnodup)

theorem unlink_next (k : Links ι) {a : ι} (hself : k.next (some a) ≠ some a) (x : Option ι) :
    (k.unlink a).next x = if x = k.prev (some a) then k.next (some a) else k.next x := by
  simp only [unlink, setNext, setPrev, Function.update_apply, if_neg hself.symm]

theorem unlink_prev (k : Links ι) (a : ι) (x : Option ι) :
    (k.unlink a).prev x = if x = k.next (some a) then k.prev (some a) else k.prev x := by
  simp only [unlink, setNext, setPrev, Function.update_apply]

/-- On a path without repetitions, `a` is taken out. -/
theorem Path.bypass (h : k.Path x (l ++ a :: l') y) (hnodup : (l ++ a :: l').Nodup)
    (hx : ∀ c ∈ l ++ a :: l', some c ≠ x) (hy : ∀ c ∈ l ++ a :: l', some c ≠ y) :
    (k.unlink a).Path x (l ++ l') y := by
  have hself : k.next (some a) ≠ some a := by
    have ha := (List.nodup_cons.mp (List.nodup_append.mp hnodup).2.1).1
    rcases h.neighbours.2 with hnext | ⟨c, hc, hnext⟩
    · rw [hnext]
      exact (hy a (List.mem_append_right l List.mem_cons_self)).symm
    · rw [hnext]
      rintro ⟨⟩
      exact ha hc
  induction l generalizing x with
  | nil =>
    obtain ⟨⟨-, hprev⟩, hrest⟩ := h
    have hxa := (unlink_next k hself x).trans (if_pos hprev.symm)
    cases l' with
    | nil =>
      obtain ⟨hnext, -⟩ := hrest
      exact ⟨hxa.trans hnext, ((unlink_prev k a y).trans (if_pos hnext.symm)).trans hprev⟩
    | cons d l' =>
      obtain ⟨⟨hnext, -⟩, hrest⟩ := hrest
      have hd := (List.nodup_cons.mp (List.nodup_cons.mp hnodup).2).1
      have hmem : ∀ {c}, c ∈ d :: l' → c ∈ [] ++ a :: d :: l' := List.mem_cons_of_mem a
      refine ⟨⟨hxa.trans hnext, ((unlink_prev k a _).trans (if_pos hnext.symm)).trans hprev⟩,
        hrest.congr ?_ ?_ (fun c hc => ?_) fun c hc => ?_⟩
      · rw [unlink_next k hself, hprev, if_neg (hx d (hmem List.mem_cons_self))]
      · rw [unlink_prev, hnext, if_neg (hy d (hmem List.mem_cons_self)).symm]
      · rw [unlink_next k hself, hprev, if_neg (hx c (hmem (List.mem_cons_of_mem d hc)))]
      · rw [unlink_prev, hnext, if_neg]
        rintro ⟨⟩
        exact hd hc
  | cons c l ih =>
    obtain ⟨⟨hnext, hprev⟩, hrest⟩ := h
    obtain ⟨hc, hnodup'⟩ := List.nodup_cons.mp hnodup
    have hmem : ∀ {e}, e ∈ l ++ a :: l' → e ∈ c :: l ++ a :: l' := List.mem_cons_of_mem c
    obtain ⟨hbefore, hbehind⟩ := hrest.neighbours
    refine ⟨⟨?_, ?_⟩, ih hrest hnodup' (fun e he heq => ?_) fun e he => hy e (hmem he)⟩
    · rw [unlink_next k hself, if_neg, hnext]
      rcases hbefore with heq | ⟨e, he, heq⟩
      · rw [heq]
        exact (hx c List.mem_cons_self).symm
      · rw [heq]
        exact (hx e (hmem (List.mem_append_left _ he))).symm
    · rw [unlink_prev, if_neg, hprev]
      rcases hbehind with heq | ⟨e, he, heq⟩
      · rw [heq]
        exact hy c List.mem_cons_self
      · rw [heq]
        rintro ⟨⟩
        exact hc (List.mem_append_right l (List.mem_cons_of_mem a he))
    · cases heq
      exact hc he

theorem Holds.unlink (h : k.Holds l) (ha : a ∈ l) : (k.unlink a).Holds (l.erase a) := by
  obtain ⟨l₁, l₂, -, rfl, herase⟩ := List.exists_erase_eq ha
  have hnone : ∀ c ∈ l₁ ++ a :: l₂, some c ≠ none := fun _ _ => nofun
  refine ⟨?_, h.nodup.erase a⟩
  rw [herase]
  exact h.path.bypass h.nodup hnone hnone

end

/-! ## Following the links -/

/-- The first node from `x` on for which `p` holds, unless the head comes first. -/
def walk (step : Option ι → Option ι) (p : ι → Bool) : Nat → Option ι → Option ι
  | 0, _ => none
  | _ + 1, none => none
  | fuel + 1, some a => if p a then some a else walk step p fuel (step (some a))

theorem Path.walk_next (h : k.Path x l none) (p : ι → Bool) {fuel : Nat} (hfuel : l.length < fuel) :
    walk k.next p fuel (k.next x) = l.find? p := by
  induction l generalizing x fuel with
  | nil =>
    obtain ⟨fuel, rfl⟩ := Nat.exists_eq_succ_of_ne_zero (Nat.ne_of_gt hfuel)
    rw [h.1]
    rfl
  | cons a l ih =>
    obtain ⟨fuel, rfl⟩ := Nat.exists_eq_succ_of_ne_zero (Nat.ne_of_gt (Nat.zero_lt_of_lt hfuel))
    rw [h.1.1, walk, List.find?_cons]
    cases p a with
    | true => rfl
    | false => exact ih h.2 (Nat.lt_of_succ_lt_succ hfuel)

/-- The ring the other way round. -/
def swap (k : Links ι) : Links ι := ⟨k.prev, k.next⟩

theorem Path.reverse : ∀ {l : List ι} {x : Option ι}, k.Path x l y →
    k.swap.Path y l.reverse x := by
  intro l
  induction l with
  | nil => exact fun {x} h => ⟨h.2, h.1⟩
  | cons a l ih =>
    intro x h
    rw [List.reverse_cons]
    exact path_append.mpr ⟨ih h.2, h.1.2, h.1.1⟩

/-- A loop from the head forward. -/
theorem Holds.walk_next (h : k.Holds l) (p : ι → Bool) {fuel : Nat} (hfuel : l.length < fuel) :
    walk k.next p fuel (k.next none) = l.find? p :=
  h.path.walk_next p hfuel

/-- A loop from the head backward. -/
theorem Holds.walk_prev (h : k.Holds l) (p : ι → Bool) {fuel : Nat} (hfuel : l.length < fuel) :
    walk k.prev p fuel (k.prev none) = l.reverse.find? p :=
  h.path.reverse.walk_next p (by rwa [List.length_reverse])

end Links

end Cs537.Lib
