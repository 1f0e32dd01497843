import Mathlib.Data.Set.Basic
import Mathlib.Data.Set.Insert
import Mathlib.Logic.Function.Basic

/-!
# Who holds what is open

Resources are opened, held by holders, and closed by the one that holds them.
A holder has one place, so what it held is lost when something else is put
there.  `Sound` says that holders hold what is open and do not share it,
`Complete` that nothing open is without a holder.

Soundness is kept by everything; completeness exactly by what is put into an
empty place (`complete_put_iff`).
-/

namespace Resources

structure Custody (ι ρ : Type) where
  opened : Set ρ
  holds : ι → Option ρ

namespace Custody

variable {ι ρ : Type} [DecidableEq ι]

structure Sound (c : Custody ι ρ) : Prop where
  held_open : ∀ i r, c.holds i = some r → r ∈ c.opened
  unshared : ∀ i j r, c.holds i = some r → c.holds j = some r → i = j

def Complete (c : Custody ι ρ) : Prop := ∀ r ∈ c.opened, ∃ i, c.holds i = some r

/-- `i` gets a resource just opened, or nothing, in place of what it held. -/
def put (c : Custody ι ρ) (i : ι) (x : Option ρ) : Custody ι ρ where
  opened := c.opened ∪ {r | x = some r}
  holds := Function.update c.holds i x

/-- What `i` holds is closed. -/
def release (c : Custody ι ρ) (i : ι) : Custody ι ρ where
  opened := c.opened \ {r | c.holds i = some r}
  holds := Function.update c.holds i none

variable {c : Custody ι ρ} {i : ι} {x : Option ρ}

theorem holds_put (j : ι) : (c.put i x).holds j = if j = i then x else c.holds j :=
  Function.update_apply c.holds i x j

theorem holds_release (j : ι) : (c.release i).holds j = if j = i then none else c.holds j :=
  Function.update_apply c.holds i none j

theorem Sound.put (h : c.Sound) (hfresh : ∀ r, x = some r → r ∉ c.opened) :
    (c.put i x).Sound := by
  have hnew : ∀ j r, j ≠ i → c.holds j = some r → x ≠ some r :=
    fun j r _ hj hx => hfresh r hx (h.held_open j r hj)
  refine ⟨fun j r hj => ?_, fun j k r hj hk => ?_⟩
  · rw [holds_put] at hj
    split at hj
    · exact Or.inr hj
    · exact Or.inl (h.held_open j r hj)
  · rw [holds_put] at hj hk
    split at hj <;> split at hk
    · next hji hki => rw [hji, hki]
    · next hki => exact absurd hj (hnew k r hki hk)
    · next hji _ => exact absurd hk (hnew j r hji hj)
    · exact h.unshared j k r hj hk

theorem complete_put_iff (h : c.Sound) (hc : c.Complete)
    (hfresh : ∀ r, x = some r → r ∉ c.opened) : (c.put i x).Complete ↔ c.holds i = none := by
  constructor
  · intro hput
    by_contra hne
    obtain ⟨r, hr⟩ := Option.ne_none_iff_exists'.mp hne
    -- what `i` held is open still, and nobody else holds it
    obtain ⟨j, hj⟩ := hput r (Or.inl (h.held_open i r hr))
    rw [holds_put] at hj
    split at hj
    · exact hfresh r hj (h.held_open i r hr)
    · next hji => exact hji (h.unshared j i r hj hr)
  · rintro hnone r (hr | hr)
    · obtain ⟨j, hj⟩ := hc r hr
      refine ⟨j, ?_⟩
      rw [holds_put, if_neg]
      · exact hj
      · rintro rfl
        rw [hnone] at hj
        cases hj
    · refine ⟨i, ?_⟩
      rw [holds_put, if_pos rfl]
      exact hr

theorem Sound.release (h : c.Sound) : (c.release i).Sound := by
  refine ⟨fun j r hj => ?_, fun j k r hj hk => ?_⟩
  · rw [holds_release] at hj
    split at hj
    · cases hj
    · next hji => exact ⟨h.held_open j r hj, fun hi => hji (h.unshared j i r hj hi)⟩
  · rw [holds_release] at hj hk
    split at hj <;> split at hk
    · cases hj
    · cases hj
    · cases hk
    · exact h.unshared j k r hj hk

theorem Complete.release (hc : c.Complete) : (c.release i).Complete := by
  rintro r ⟨hr, hi⟩
  obtain ⟨j, hj⟩ := hc r hr
  refine ⟨j, ?_⟩
  rw [holds_release, if_neg]
  · exact hj
  · rintro rfl
    exact hi hj

end Custody

end Resources
