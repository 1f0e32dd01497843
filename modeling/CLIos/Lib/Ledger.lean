import Mathlib.Data.List.Basic

/-!
# A ledger of releases

For resources that are to be released once and not used afterwards.  A ledger
counts the releases of each resource and remembers whether one was used, or
released again, after its release.  `record` enters a list of accesses.
-/

namespace Resources

inductive Access (ρ : Type) where
  | touch (r : ρ)
  | release (r : ρ)
deriving DecidableEq

def Access.resource {ρ : Type} : Access ρ → ρ
  | .touch r | .release r => r

structure Ledger (ρ : Type) where
  releases : ρ → Nat
  stale : Bool

namespace Ledger

variable {ρ : Type} [DecidableEq ρ]

def empty : Ledger ρ := ⟨fun _ => 0, false⟩

def access (L : Ledger ρ) (a : Access ρ) : Ledger ρ where
  releases := fun r => L.releases r + if a = .release r then 1 else 0
  stale := L.stale || decide (0 < L.releases a.resource)

def record (L : Ledger ρ) (as : List (Access ρ)) : Ledger ρ := as.foldl access L

/-- Nothing was released twice, or used after its release. -/
def Clean (L : Ledger ρ) : Prop := (∀ r, L.releases r ≤ 1) ∧ L.stale = false

@[simp] theorem record_cons (L : Ledger ρ) (a : Access ρ) (as : List (Access ρ)) :
    L.record (a :: as) = (L.access a).record as := rfl

theorem releases_record (L : Ledger ρ) (as : List (Access ρ)) (r : ρ) :
    (L.record as).releases r = L.releases r + as.count (.release r) := by
  induction as generalizing L with
  | nil => rfl
  | cons a as ih =>
    rw [record_cons, ih, List.count_cons]
    show L.releases r + (if a = .release r then 1 else 0) + _ = _
    by_cases h : a = .release r
    · rw [if_pos h, if_pos (beq_iff_eq.mpr h)]
      omega
    · rw [if_neg h, if_neg (fun hb => h (beq_iff_eq.mp hb))]
      omega

/-- Accesses that leave the ledger clean are to resources not released before. -/
theorem not_released_of_record (L : Ledger ρ) (as : List (Access ρ))
    (h : (L.record as).stale = false) :
    L.stale = false ∧ ∀ a ∈ as, L.releases a.resource = 0 := by
  induction as generalizing L with
  | nil => exact ⟨h, by simp⟩
  | cons a as ih =>
    obtain ⟨hstale, has⟩ := ih (L.access a) h
    have hstale : (L.stale || decide (0 < L.releases a.resource)) = false := hstale
    rw [Bool.or_eq_false_iff, decide_eq_false_iff_not] at hstale
    refine ⟨hstale.1, fun b hb => ?_⟩
    rcases List.mem_cons.mp hb with rfl | hb
    · omega
    · have hb : L.releases b.resource + _ = 0 := has b hb
      omega

/-- Accesses to resources not released before leave it clean, if among
themselves none follows the release of its resource. -/
theorem stale_record (L : Ledger ρ) (as : List (Access ρ)) (hL : L.stale = false)
    (h : ∀ a ∈ as, L.releases a.resource = 0)
    (horder : as.Pairwise fun a b => a ≠ .release b.resource) : (L.record as).stale = false := by
  induction as generalizing L with
  | nil => exact hL
  | cons a as ih =>
    obtain ⟨ha, has⟩ := List.pairwise_cons.mp horder
    refine ih (L.access a) ?_ (fun b hb => ?_) has
    · show (L.stale || decide (0 < L.releases a.resource)) = false
      rw [hL, h a List.mem_cons_self]
      rfl
    · show L.releases b.resource + (if a = .release b.resource then 1 else 0) = 0
      rw [if_neg (ha b hb), h b (List.mem_cons_of_mem a hb)]

/-- Accesses of which none follows the release of its resource release it once. -/
theorem count_release_le_one {as : List (Access ρ)}
    (horder : as.Pairwise fun a b => a ≠ .release b.resource) (r : ρ) :
    as.count (.release r) ≤ 1 := by
  induction as with
  | nil => exact Nat.zero_le 1
  | cons a as ih =>
    obtain ⟨ha, has⟩ := List.pairwise_cons.mp horder
    rw [List.count_cons]
    split
    · next hr =>
      obtain rfl : a = .release r := beq_iff_eq.mp hr
      have hnone : as.count (.release r) = 0 :=
        List.count_eq_zero_of_not_mem fun hmem => ha _ hmem rfl
      omega
    · exact ih has

/-- A clean ledger stays clean exactly if nothing is accessed that was released before. -/
theorem clean_record_iff (L : Ledger ρ) (as : List (Access ρ)) (hL : L.Clean)
    (horder : as.Pairwise fun a b => a ≠ .release b.resource) :
    (L.record as).Clean ↔ ∀ a ∈ as, L.releases a.resource = 0 := by
  constructor
  · intro h
    exact (L.not_released_of_record as h.2).2
  · intro h
    refine ⟨fun r => ?_, L.stale_record as hL.2 h horder⟩
    rw [releases_record]
    by_cases hr : .release r ∈ as
    · have hzero : L.releases r = 0 := h _ hr
      rw [hzero, Nat.zero_add]
      exact count_release_le_one horder r
    · rw [List.count_eq_zero_of_not_mem hr]
      exact hL.1 r

end Ledger

end Resources
