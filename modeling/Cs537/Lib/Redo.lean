import Mathlib.Logic.Function.Basic
import Cs537.Lib.Run

/-!
# Redo records and transactions

`replay` writes a record of writes to a store. To write a part of a record first, as a recovery
that is cut off does, makes no difference to a replay of the whole. `Store` is what a redo log is
for: operations write to the current contents, which become durable only while no operation is
going on, and a crash falls back to the durable ones.
-/

namespace Cs537.Lib

variable {ι α β : Type*} [DecidableEq α]

/-! ## Replaying writes -/

/-- The store after a record of writes. -/
def replay (store : α → β) : List (α × β) → α → β
  | [] => store
  | w :: record => replay (Function.update store w.1 w.2) record

@[simp] theorem replay_nil (store : α → β) : replay store [] = store := rfl

@[simp] theorem replay_cons (store : α → β) (w : α × β) (record : List (α × β)) :
    replay store (w :: record) = replay (Function.update store w.1 w.2) record := rfl

theorem replay_congr {store store' : α → β} {a : α} (record : List (α × β))
    (h : store a = store' a) : replay store record a = replay store' record a := by
  induction record generalizing store store' with
  | nil => exact h
  | cons w record ih =>
    rw [replay_cons, replay_cons]
    refine ih ?_
    by_cases ha : a = w.1
    · rw [ha, Function.update_self, Function.update_self]
    · rw [Function.update_of_ne ha, Function.update_of_ne ha, h]

/-- What a record writes does not depend on the store. -/
theorem replay_of_mem {store store' : α → β} {record : List (α × β)} {a : α}
    (h : a ∈ record.map Prod.fst) : replay store record a = replay store' record a := by
  induction record generalizing store store' with
  | nil => cases h
  | cons w record ih =>
    rw [replay_cons, replay_cons]
    by_cases ha : a = w.1
    · refine replay_congr record ?_
      rw [ha, Function.update_self, Function.update_self]
    · rw [List.map_cons, List.mem_cons] at h
      exact ih (h.resolve_left ha)

/-- A place that the record writes anyway may have been overwritten before. -/
theorem replay_update {record : List (α × β)} {a : α} (h : a ∈ record.map Prod.fst)
    (store : α → β) (v : β) : replay (Function.update store a v) record = replay store record := by
  funext b
  by_cases hb : b = a
  · subst hb
    exact replay_of_mem h
  · exact replay_congr record (Function.update_of_ne hb v store)

/-- Replaying a record whose values are all those of `new`. -/
theorem replay_eq {store new : α → β} {record : List (α × β)} (hw : ∀ w ∈ record, w.2 = new w.1)
    {a : α} (ha : a ∉ record.map Prod.fst → store a = new a) : replay store record a = new a := by
  induction record generalizing store with
  | nil => exact ha (List.not_mem_nil)
  | cons w record ih =>
    rw [replay_cons]
    refine ih (fun x hx => hw x (List.mem_cons_of_mem w hx)) ?_
    intro hnot
    by_cases haw : a = w.1
    · rw [haw, Function.update_self, hw w List.mem_cons_self]
    · rw [Function.update_of_ne haw]
      refine ha ?_
      rw [List.map_cons, List.mem_cons, not_or]
      exact ⟨haw, hnot⟩

/-! ## Transactions -/

/-- The contents that operations see, those that a crash leaves, and the operations going on. -/
structure Store (ι α β : Type*) where
  current : α → β
  durable : α → β
  active : List ι

namespace Store

/-- What happens to a store. -/
inductive Event (ι α β : Type*) where
  | begin (p : ι)
  | write (p : ι) (a : α) (v : β)
  | finish (p : ι)
  | commit
  | crash

/-- Something that the operations, or a crash, do to the contents. -/
def Event.visible : Event ι α β → Bool
  | .begin _ | .commit => false
  | .write _ _ _ | .finish _ | .crash => true

variable [DecidableEq ι]

/-- One step; a commit waits until no operation is going on. -/
def next (s : Store ι α β) : Event ι α β → Option (Store ι α β)
  | .begin p => some { s with active := p :: s.active }
  | .write p a v =>
    if p ∈ s.active then some { s with current := Function.update s.current a v } else none
  | .finish p => if p ∈ s.active then some { s with active := s.active.erase p } else none
  | .commit => if s.active = [] then some { s with durable := s.current } else none
  | .crash => some { s with current := s.durable, active := [] }

variable {s t : Store ι α β} {es : List (Event ι α β)}

/-- The durable contents are always the current contents of a moment at which no operation was
going on: of every operation there are all the writes or none. -/
theorem durable_eq_current (hs : s.active = []) (hds : s.durable = s.current)
    (run : Run (stepOf next) s es t) :
    ∃ es₁ es₂ u, es = es₁ ++ es₂ ∧ Run (stepOf next) s es₁ u ∧ u.active = [] ∧
      t.durable = u.current := by
  induction run with
  | nil => exact ⟨[], [], s, rfl, .nil, hs, hds⟩
  | @snoc es u v e run hstep ih =>
    obtain ⟨es₁, es₂, w, hes, hrun, hactive, hdurable⟩ := ih
    have hwhole := run.snoc hstep
    have hold (hsame : v.durable = u.durable) : ∃ es₁ es₂ w, es ++ [e] = es₁ ++ es₂ ∧
        Run (stepOf next) s es₁ w ∧ w.active = [] ∧ v.durable = w.current :=
      ⟨es₁, es₂ ++ [e], w, by rw [hes, List.append_assoc], hrun, hactive, hsame.trans hdurable⟩
    cases e with
    | begin p | crash =>
      cases hstep
      exact hold rfl
    | write p a b =>
      simp only [stepOf, next, Option.ite_none_right_eq_some, Option.some.injEq] at hstep
      obtain ⟨-, rfl⟩ := hstep
      exact hold rfl
    | finish p =>
      simp only [stepOf, next, Option.ite_none_right_eq_some, Option.some.injEq] at hstep
      obtain ⟨-, rfl⟩ := hstep
      exact hold rfl
    | commit =>
      simp only [stepOf, next, Option.ite_none_right_eq_some, Option.some.injEq] at hstep
      obtain ⟨hnone, rfl⟩ := hstep
      exact ⟨es ++ [.commit], [], { u with durable := u.current }, (List.append_nil _).symm, hwhole,
        hnone, rfl⟩

end Store

end Cs537.Lib
