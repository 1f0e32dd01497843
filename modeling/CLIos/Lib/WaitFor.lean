import Mathlib.Data.Set.Basic
import Mathlib.Logic.Relation

/-!
# Who waits for whom

Tasks `τ` want locks `ρ`, one at a time, and a lock is free or has a holder.  A
task waits for the holder of the lock that it wants.  A knot is a set of tasks
in which everybody waits for one of the set; there is none exactly if from every
task one comes, from holder to holder, to one that waits for nobody
(`free_iff`).  That is so where every task wants a lock above those it holds
(`free_of_ordered`), and then nobody waits for ever, if the locks are given and
passed on (`Passing.not_for_ever`).
-/

namespace Waits

open Relation

structure WaitGraph (τ ρ : Type) where
  wants : τ → Option ρ
  holder : ρ → Option τ

namespace WaitGraph

variable {τ ρ : Type} (G : WaitGraph τ ρ)

def WaitsFor (c d : τ) : Prop := ∃ r, G.wants c = some r ∧ G.holder r = some d

/-- It wants no lock, or one that is free. -/
def Unhindered (c : τ) : Prop := ∀ d, ¬ G.WaitsFor c d

/-- Everybody waits, in the end, for somebody who need not wait. -/
def Free : Prop := ∀ c, ∃ d, ReflTransGen G.WaitsFor c d ∧ G.Unhindered d

structure Knot (C : Set τ) : Prop where
  nonempty : C.Nonempty
  waits : ∀ c ∈ C, ∃ d ∈ C, G.WaitsFor c d

variable {G}

theorem WaitsFor.eq {c d e : τ} (hd : G.WaitsFor c d) (he : G.WaitsFor c e) : d = e := by
  obtain ⟨r, hr, hd⟩ := hd
  obtain ⟨r', hr', he⟩ := he
  obtain rfl : r = r' := Option.some.inj (hr.symm.trans hr')
  exact Option.some.inj (hd.symm.trans he)

/-- Nobody waits for a task outside of the knot. -/
theorem Knot.mem_of_waitsFor {C : Set τ} (h : G.Knot C) {c d : τ} (hc : c ∈ C)
    (hd : G.WaitsFor c d) : d ∈ C := by
  obtain ⟨e, he, hwaits⟩ := h.waits c hc
  rwa [hd.eq hwaits]

theorem Knot.mem_of_leads {C : Set τ} (h : G.Knot C) {c d : τ} (hc : c ∈ C)
    (hd : ReflTransGen G.WaitsFor c d) : d ∈ C := by
  induction hd with
  | refl => exact hc
  | tail _ hlast ih => exact h.mem_of_waitsFor ih hlast

theorem free_iff : G.Free ↔ ∀ C, ¬ G.Knot C := by
  constructor
  · intro hfree C hknot
    obtain ⟨c, hc⟩ := hknot.nonempty
    obtain ⟨d, hd, hunhindered⟩ := hfree c
    obtain ⟨e, -, hwaits⟩ := hknot.waits d (hknot.mem_of_leads hc hd)
    exact hunhindered e hwaits
  · intro hnone c
    by_contra hend
    -- the tasks to which one comes from `c`
    refine hnone {d | ReflTransGen G.WaitsFor c d} ⟨⟨c, .refl⟩, fun d hd => ?_⟩
    have hwaits : ∃ e, G.WaitsFor d e := by
      by_contra hnot
      exact hend ⟨d, hd, fun e he => hnot ⟨e, he⟩⟩
    obtain ⟨e, he⟩ := hwaits
    exact ⟨e, ReflTransGen.tail hd he, he⟩

/-- A knot stays if its tasks go on wanting what they want and holding what they hold. -/
theorem Knot.stays {G' : WaitGraph τ ρ} {C : Set τ} (h : G.Knot C)
    (hwants : ∀ c ∈ C, G'.wants c = G.wants c)
    (hholds : ∀ c ∈ C, ∀ r, G.holder r = some c → G'.holder r = some c) : G'.Knot C := by
  refine ⟨h.nonempty, fun c hc => ?_⟩
  obtain ⟨d, hd, r, hr, hholder⟩ := h.waits c hc
  exact ⟨d, hd, r, (hwants c hc).trans hr, hholds d hd r hholder⟩

/-! ## Locks in order -/

/-- What a task holds is below what it wants. -/
def Ordered (G : WaitGraph τ ρ) (rank : ρ → Nat) : Prop :=
  ∀ c r r', G.wants c = some r → G.holder r' = some c → rank r' < rank r

/-- The ranks of the locks on the way from holder to holder rise, and they are bounded. -/
theorem free_of_ordered {rank : ρ → Nat} (h : G.Ordered rank) (n : Nat)
    (hn : ∀ r c, G.holder r = some c → rank r ≤ n) : G.Free := by
  have hclimb : ∀ m c, (∀ r d, G.wants c = some r → G.holder r = some d → n < rank r + m) →
      ∃ d, ReflTransGen G.WaitsFor c d ∧ G.Unhindered d := by
    intro m
    induction m with
    | zero =>
      intro c hc
      refine ⟨c, .refl, ?_⟩
      rintro d ⟨r, hr, hd⟩
      have := hc r d hr hd
      have := hn r d hd
      omega
    | succ m ih =>
      intro c hc
      by_cases hfree : G.Unhindered c
      · exact ⟨c, .refl, hfree⟩
      · obtain ⟨d, r, hr, hd⟩ : ∃ d, G.WaitsFor c d := by
          by_contra hnot
          exact hfree fun d hd => hnot ⟨d, hd⟩
        have hrank := hc r d hr hd
        obtain ⟨e, he, hend⟩ := ih d fun r' d' hr' _ => by
          have := h d r' r hr' hd
          omega
        exact ⟨e, .head ⟨r, hr, hd⟩ he, hend⟩
  intro c
  exact hclimb (n + 1) c fun r d _ _ => by omega

end WaitGraph

/-! ## Over time -/

/-- A graph for every moment.  A lock passes on by being free; it is not free again and
again while somebody wants it for ever; and only who wants a lock for ever keeps one. -/
structure Passing {τ ρ : Type} (G : Nat → WaitGraph τ ρ) : Prop where
  passes : ∀ n r c, (G n).holder r = some c →
    (G (n + 1)).holder r = some c ∨ (G (n + 1)).holder r = none
  grants : ∀ n c r, (∀ m, n ≤ m → (G m).wants c = some r) →
    ∃ m, n ≤ m ∧ ∀ l, m ≤ l → (G l).holder r ≠ none
  gives : ∀ n c r, (∀ m, n ≤ m → (G m).holder r = some c) →
    ∃ m r', n ≤ m ∧ ∀ l, m ≤ l → (G l).wants c = some r'

variable {τ ρ : Type} {G : Nat → WaitGraph τ ρ}

/-- A lock that is never free again stays with its holder. -/
theorem Passing.stays (h : Passing G) {r : ρ} {c : τ} {m : Nat} (hc : (G m).holder r = some c)
    (hheld : ∀ l, m ≤ l → (G l).holder r ≠ none) : ∀ l, m ≤ l → (G l).holder r = some c := by
  intro l hl
  induction l, hl using Nat.le_induction with
  | base => exact hc
  | succ l hl ih => exact (h.passes l r c ih).resolve_right (hheld (l + 1) (Nat.le_succ_of_le hl))

/-- Where locks are in an order with a last one, nobody wants one for ever. -/
theorem Passing.not_for_ever (h : Passing G) {rank : ρ → Nat} (hord : ∀ n, (G n).Ordered rank)
    {N : Nat} (hN : ∀ r, rank r ≤ N) (n : Nat) (c : τ) (r : ρ) :
    ¬ ∀ m, n ≤ m → (G m).wants c = some r := by
  obtain ⟨k, hk⟩ : ∃ k, N < rank r + k := ⟨N + 1, by omega⟩
  induction k generalizing n c r with
  | zero =>
    have := hN r
    omega
  | succ k ih =>
    intro hwants
    obtain ⟨m, -, hheld⟩ := h.grants n c r hwants
    obtain ⟨d, hd⟩ := Option.ne_none_iff_exists'.mp (hheld m (Nat.le_refl m))
    have hstays := h.stays hd hheld
    -- its holder wants a lock above it for ever
    obtain ⟨m', r', hm', hwants'⟩ := h.gives m d r hstays
    have := hord m' d r' r (hwants' m' (Nat.le_refl m')) (hstays m' hm')
    exact ih m' d r' (by omega) hwants'

end Waits
