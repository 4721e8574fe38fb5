import Cs537.Lib.Run

/-!
# Sleeping on conditions

Processes sleep on channels, and to each channel belongs a condition on the state under which it is
right to sleep there. No wakeup is lost if nobody falls asleep unless the condition holds, and a
step that ends the condition wakes everybody on the channel.
-/

namespace Cs537.Lib

variable {σ ε ι χ : Type*}

/-- Who sleeps where, and when it is right to. -/
structure Monitor (σ ι χ : Type*) where
  asleep : σ → ι → Option χ
  blocked : σ → χ → Prop

namespace Monitor

variable (m : Monitor σ ι χ) {s s' : σ}

/-- Every sleeper has to wait. -/
def Sound (s : σ) : Prop := ∀ p c, m.asleep s p = some c → m.blocked s c

/-- A step that loses no wakeup. -/
structure Wakes (s s' : σ) : Prop where
  falls : ∀ p c, m.asleep s' p = some c → m.asleep s p = some c ∨ m.blocked s' c
  wakes : ∀ c, m.blocked s c → ¬ m.blocked s' c → ∀ p, m.asleep s' p ≠ some c

variable {m}

theorem Sound.step (h : m.Sound s) (hstep : m.Wakes s s') : m.Sound s' := by
  intro p c hp
  refine Classical.byContradiction fun hfree => ?_
  rcases hstep.falls p c hp with hold | hnew
  · exact hstep.wakes c (h p c hold) hfree p hp
  · exact hfree hnew

/-- A step after which nobody sleeps who did not sleep before, and all waits go on. -/
theorem Wakes.of_blocked (hasleep : ∀ p c, m.asleep s' p = some c → m.asleep s p = some c)
    (hblocked : ∀ c, m.blocked s c → m.blocked s' c) : m.Wakes s s' :=
  ⟨fun p c hp => .inl (hasleep p c hp), fun c hc hfree => absurd (hblocked c hc) hfree⟩

/-- A step that wakes everybody. -/
theorem Wakes.of_awake (hawake : ∀ p, m.asleep s' p = none) : m.Wakes s s' := by
  have hnone : ∀ p c, m.asleep s' p ≠ some c := by
    intro p c hp
    rw [hawake p] at hp
    cases hp
  exact ⟨fun p c hp => absurd hp (hnone p c), fun c _ _ p => hnone p c⟩

/-- A step that wakes one channel, and after which those who have just fallen asleep have to. -/
theorem Sound.woken (h : m.Sound s) (c : χ)
    (hasleep : ∀ p d, m.asleep s' p = some d → (m.asleep s p = some d ∧ d ≠ c) ∨ m.blocked s' d)
    (hblocked : ∀ d, d ≠ c → m.blocked s d → m.blocked s' d) : m.Sound s' := by
  intro p d hp
  rcases hasleep p d hp with ⟨hold, hd⟩ | hnew
  · exact hblocked d hd (h p d hold)
  · exact hnew

end Monitor

end Cs537.Lib
