import Mathlib.Data.Nat.ModEq
import Mathlib.Tactic.Common

/-!
# Deadlines on a counter that wraps

A clock counts ticks from 0 for ever; what a task sees of a time `n` is `n % w`.
A periodic task remembers the time `prev` it was due last and asks whether it has
to wait for `prev + incr`, and how long.  `shouldDelay` and `ticksToWait` answer
that from what is seen alone.

They are right as long as the task asks no earlier than `prev` and less than `w`
ticks later (`shouldDelay_iff`, `ticksToWait_eq`).  A task that asks before
`prev` is taken for one that asks after the counter has wrapped, and is not made
to wait (`not_shouldDelay_of_lt`).
-/

namespace Ticks

variable (w : Nat)

/-- Two branches: the counter is below `prev`, so it has wrapped since; or not. -/
def shouldDelay (prev incr now : Nat) : Bool :=
  let wake := (prev + incr) % w
  if now < prev then decide (wake < prev ∧ now < wake) else decide (wake < prev ∨ now < wake)

/-- A difference of two counters. -/
def ticksToWait (prev incr now : Nat) : Nat := ((prev + incr) % w + w - now) % w

variable {w}

/-- Adding less than a full round to a counter. -/
theorem add_mod_cases {p e : Nat} (hp : p < w) (he : e < w) :
    (p + e < w ∧ (p + e) % w = p + e) ∨ (w ≤ p + e ∧ (p + e) % w = p + e - w) := by
  rcases Nat.lt_or_ge (p + e) w with hlt | hge
  · exact Or.inl ⟨hlt, Nat.mod_eq_of_lt hlt⟩
  · refine Or.inr ⟨hge, ?_⟩
    rw [Nat.mod_eq_sub_mod hge, Nat.mod_eq_of_lt (by omega)]

/-- The counters at the time due, now and at the next deadline, from the time due. -/
theorem counters {due now incr : Nat} (hle : due ≤ now) (hi : incr < w) :
    due % w < w ∧ now % w = (due % w + (now - due)) % w ∧
      (due % w + incr) % w = (due + incr) % w := by
  refine ⟨Nat.mod_lt _ (by omega), ?_, Nat.mod_add_mod due w incr⟩
  rw [Nat.mod_add_mod, Nat.add_sub_cancel' hle]

theorem shouldDelay_iff {due now incr : Nat} (hle : due ≤ now) (hlt : now < due + w)
    (hi : incr < w) : shouldDelay w (due % w) incr (now % w) = true ↔ now < due + incr := by
  obtain ⟨hp, hnow, -⟩ := counters hle hi
  unfold shouldDelay
  rw [hnow]
  rcases add_mod_cases hp hi with ⟨hi', hwake⟩ | ⟨hi', hwake⟩ <;>
    rcases add_mod_cases hp (show now - due < w by omega) with ⟨he', hseen⟩ | ⟨he', hseen⟩ <;>
    rw [hwake, hseen] <;> simp only <;> split <;> simp only [decide_eq_true_eq] <;> omega

theorem ticksToWait_eq {due now incr : Nat} (hle : due ≤ now) (hlt : now < due + incr)
    (hi : incr < w) : ticksToWait w (due % w) incr (now % w) = due + incr - now := by
  obtain ⟨hp, hnow, -⟩ := counters hle hi
  unfold ticksToWait
  rw [hnow]
  have hsmall : due + incr - now < w := by omega
  rcases add_mod_cases hp hi with ⟨hi', hwake⟩ | ⟨hi', hwake⟩ <;>
    rcases add_mod_cases hp (show now - due < w by omega) with ⟨he', hseen⟩ | ⟨he', hseen⟩ <;>
    rw [hwake, hseen]
  · rw [show due % w + incr + w - (due % w + (now - due)) = due + incr - now + w by omega,
      Nat.add_mod_right, Nat.mod_eq_of_lt hsmall]
  · omega
  · rw [show due % w + incr - w + w - (due % w + (now - due)) = due + incr - now by omega,
      Nat.mod_eq_of_lt hsmall]
  · rw [show due % w + incr - w + w - (due % w + (now - due) - w) = due + incr - now + w by omega,
      Nat.add_mod_right, Nat.mod_eq_of_lt hsmall]

/-- Asked before the time it was due, and the next deadline does not wrap. -/
theorem not_shouldDelay_of_lt {prev incr now : Nat} (hlt : now < prev) (hw : prev + incr < w) :
    shouldDelay w prev incr now = false := by
  unfold shouldDelay
  rw [Nat.mod_eq_of_lt hw]
  simp only [hlt, if_true, decide_eq_false_iff_not]
  omega

end Ticks
