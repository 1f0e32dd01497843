import CLIos.Lib.Machine
import Mathlib.Order.WellFounded

/-!
# Executions that do not end, and what a fair one reaches

An execution of a machine goes on for ever: at every moment one step is taken or
none.  The labels belong to movers, or to nobody (the steps of the surroundings).
A fair execution lets nobody keep its turn for ever without moving.

`Ranking` is the rule for what a fair execution reaches: while the goal is not
reached one mover, the helper, has its turn and can only lower the rank; no other
step raises it, and those that leave it leave the helper too.
-/

namespace Runs

structure Execution {σ α : Type} (M : Machine σ α) where
  state : Nat → σ
  /-- the step taken at a moment, if one is -/
  label : Nat → Option α
  start : state 0 = M.init
  idle : ∀ n, label n = none → state (n + 1) = state n
  next : ∀ n a, label n = some a → M.step (state n) a = some (state (n + 1))

namespace Execution

variable {σ α κ : Type} {M : Machine σ α}

def Along (E : Execution M) (Q : σ → α → Prop) : Prop :=
  ∀ n a, E.label n = some a → Q (E.state n) a

/-- Whoever has its turn at every moment from some moment on moves again. -/
def Fair (E : Execution M) (mover : α → Option κ) (turn : σ → κ → Prop) : Prop :=
  ∀ k n, (∀ m, n ≤ m → turn (E.state m) k) →
    ∃ m a, n ≤ m ∧ E.label m = some a ∧ mover a = some k

/-- Whoever has its turn again and again moves again. -/
def StrongFair (E : Execution M) (mover : α → Option κ) (turn : σ → κ → Prop) : Prop :=
  ∀ k n, (∀ m, n ≤ m → ∃ l, m ≤ l ∧ turn (E.state l) k) →
    ∃ m a, n ≤ m ∧ E.label m = some a ∧ mover a = some k

/-- An invariant of the steps that meet `Q` holds from a moment on. -/
theorem always_from {E : Execution M} {Q : σ → α → Prop} {I : σ → Prop} (hQ : E.Along Q)
    (hstep : ∀ s a s', I s → Q s a → M.step s a = some s' → I s') {n : Nat} (hn : I (E.state n)) :
    ∀ m, n ≤ m → I (E.state m) := by
  intro m hm
  induction m, hm using Nat.le_induction with
  | base => exact hn
  | succ m _ ih =>
    cases hl : E.label m with
    | none =>
      rw [E.idle m hl]
      exact ih
    | some a => exact hstep _ a _ ih (hQ m a hl) (E.next m a hl)

end Execution

/-! ## The rule -/

section

variable {σ α κ : Type}

structure Ranking (M : Machine σ α) (Q : σ → α → Prop) (mover : α → Option κ)
    (turn : σ → κ → Prop) (I goal : σ → Prop) (ρ : Type) [Preorder ρ] where
  rank : σ → ρ
  helper : σ → κ
  keeps : ∀ s a s', I s → ¬ goal s → Q s a → M.step s a = some s' → goal s' ∨ I s'
  helps : ∀ s, I s → ¬ goal s → turn s (helper s)
  lowers : ∀ s a s', I s → ¬ goal s → Q s a → M.step s a = some s' →
    goal s' ∨ rank s' < rank s ∨
      rank s' = rank s ∧ helper s' = helper s ∧ mover a ≠ some (helper s)

namespace Ranking

variable {M : Machine σ α} {Q : σ → α → Prop} {mover : α → Option κ} {turn : σ → κ → Prop}
  {I goal : σ → Prop} {ρ : Type} [Preorder ρ]

/-- The invariant holds as long as the goal is not reached. -/
theorem always_from (R : Ranking M Q mover turn I goal ρ) {E : Execution M} (hQ : E.Along Q)
    {n : Nat} (hn : I (E.state n)) (hgoal : ∀ m, n ≤ m → ¬ goal (E.state m)) :
    ∀ m, n ≤ m → I (E.state m) := by
  intro m hm
  induction m, hm using Nat.le_induction with
  | base => exact hn
  | succ m hm ih =>
    cases hl : E.label m with
    | none =>
      rw [E.idle m hl]
      exact ih
    | some a =>
      exact (R.keeps _ a _ ih (hgoal m hm) (hQ m a hl) (E.next m a hl)).resolve_left
        (hgoal (m + 1) (Nat.le_succ_of_le hm))

/-- Up to a moment the rank has sunk, or it and the helper are those of the start. -/
theorem sunk_or_same (R : Ranking M Q mover turn I goal ρ) {E : Execution M} (hQ : E.Along Q)
    {n : Nat} (hI : ∀ m, n ≤ m → I (E.state m)) (hgoal : ∀ m, n ≤ m → ¬ goal (E.state m)) :
    ∀ m, n ≤ m → (∃ l, n ≤ l ∧ R.rank (E.state l) < R.rank (E.state n)) ∨
      R.rank (E.state m) = R.rank (E.state n) ∧ R.helper (E.state m) = R.helper (E.state n) := by
  intro m hm
  induction m, hm using Nat.le_induction with
  | base => exact Or.inr ⟨rfl, rfl⟩
  | succ m hm ih =>
    rcases ih with hsunk | ⟨hrank, hhelper⟩
    · exact Or.inl hsunk
    · cases hl : E.label m with
      | none =>
        rw [E.idle m hl]
        exact Or.inr ⟨hrank, hhelper⟩
      | some a =>
        have hm' : n ≤ m + 1 := Nat.le_succ_of_le hm
        rcases R.lowers _ a _ (hI m hm) (hgoal m hm) (hQ m a hl) (E.next m a hl) with
          hg | hlt | ⟨heq, hsame, -⟩
        · exact absurd hg (hgoal (m + 1) hm')
        · exact Or.inl ⟨m + 1, hm', hrank ▸ hlt⟩
        · exact Or.inr ⟨heq.trans hrank, hsame.trans hhelper⟩

/-- In a fair execution the rank of a state from which the goal is never reached sinks. -/
theorem sinks (R : Ranking M Q mover turn I goal ρ) {E : Execution M} (hQ : E.Along Q)
    (hfair : E.Fair mover turn) {n : Nat} (hI : ∀ m, n ≤ m → I (E.state m))
    (hgoal : ∀ m, n ≤ m → ¬ goal (E.state m)) :
    ∃ l, n ≤ l ∧ R.rank (E.state l) < R.rank (E.state n) := by
  by_contra hnot
  have hsame : ∀ m, n ≤ m → R.rank (E.state m) = R.rank (E.state n) ∧
      R.helper (E.state m) = R.helper (E.state n) :=
    fun m hm => (R.sunk_or_same hQ hI hgoal m hm).resolve_left hnot
  have hturn : ∀ m, n ≤ m → turn (E.state m) (R.helper (E.state n)) := by
    intro m hm
    rw [← (hsame m hm).2]
    exact R.helps _ (hI m hm) (hgoal m hm)
  -- the helper of the start moves, and its step leaves neither the rank nor the helper
  obtain ⟨m, a, hm, hl, hmover⟩ := hfair _ n hturn
  have hm' : n ≤ m + 1 := Nat.le_succ_of_le hm
  rcases R.lowers _ a _ (hI m hm) (hgoal m hm) (hQ m a hl) (E.next m a hl) with
    hg | hlt | ⟨-, -, hne⟩
  · exact hgoal (m + 1) hm' hg
  · exact hnot ⟨m + 1, hm', (hsame m hm).1 ▸ hlt⟩
  · rw [(hsame m hm).2] at hne
    exact hne hmover

theorem reaches [WellFoundedLT ρ] (R : Ranking M Q mover turn I goal ρ) {E : Execution M}
    (hQ : E.Along Q) (hfair : E.Fair mover turn) {n : Nat} (hn : I (E.state n)) :
    ∃ m, n ≤ m ∧ goal (E.state m) := by
  induction hr : R.rank (E.state n) using WellFoundedLT.induction generalizing n with
  | ind r ih =>
    subst hr
    by_contra hnot
    have hgoal : ∀ m, n ≤ m → ¬ goal (E.state m) := fun m hm hg => hnot ⟨m, hm, hg⟩
    have hI : ∀ m, n ≤ m → I (E.state m) := R.always_from hQ hn hgoal
    obtain ⟨l, hl, hlt⟩ := R.sinks hQ hfair hI hgoal
    obtain ⟨m, hm, hg⟩ := ih _ hlt (hI l hl) rfl
    exact hnot ⟨m, hl.trans hm, hg⟩

end Ranking

end

/-! ## A run that has ended, as an execution -/

namespace Execution

variable {σ α κ : Type} {M : Machine σ α}

theorem take_succ_of_some {as : List α} {n : Nat} {a : α} (h : as[n]? = some a) :
    as.take (n + 1) = as.take n ++ [a] := by
  rw [List.take_add_one, h, Option.toList_some]

/-- The labels `as` one after another, and no step from then on. -/
def ofRun (as : List α) (s : σ) (h : M.run as = some s) : Execution M where
  state n := (M.run (as.take n)).getD s
  label n := as[n]?
  start := rfl
  idle := by
    intro n hn
    have hlen := List.getElem?_eq_none_iff.mp hn
    rw [List.take_of_length_le hlen, List.take_of_length_le (Nat.le_succ_of_le hlen)]
  next := by
    intro n a ha
    have htake := take_succ_of_some ha
    obtain ⟨s', hs'⟩ := M.prefix_defined (List.take_prefix (n + 1) as) h
    obtain ⟨s₀, hs₀, hstep⟩ := (M.run_concat_eq_some (as.take n) a s').mp (htake ▸ hs')
    rw [hs₀, hs']
    exact hstep

theorem ofRun_along {Q : σ → α → Prop} {as : List α} {s : σ} (h : M.run as = some s)
    (hQ : M.Along Q as) : (ofRun as s h).Along Q := by
  intro n a ha
  have htake := take_succ_of_some (show as[n]? = some a from ha)
  obtain ⟨s₀, hs₀⟩ := M.prefix_defined (List.take_prefix n as) h
  have hnext := (ofRun as s h).next n a ha
  have hstate : (ofRun as s h).state n = s₀ := by
    show (M.run (as.take n)).getD s = s₀
    rw [hs₀]
    rfl
  rw [hstate] at hnext ⊢
  exact hQ (as.take n) a s₀ _ (htake ▸ List.take_prefix (n + 1) as) hs₀ hnext

theorem ofRun_state_of_le {as : List α} {s : σ} (h : M.run as = some s) {n : Nat}
    (hn : as.length ≤ n) : (ofRun as s h).state n = s := by
  show (M.run (as.take n)).getD s = s
  rw [List.take_of_length_le hn, h]
  rfl

/-- It is fair when it ends where nobody has its turn. -/
theorem ofRun_fair {mover : α → Option κ} {turn : σ → κ → Prop} {as : List α} {s : σ}
    (h : M.run as = some s) (hend : ∀ k, ¬ turn s k) : (ofRun as s h).Fair mover turn := by
  intro k n hturn
  have hlast := hturn (max n as.length) (Nat.le_max_left n as.length)
  rw [ofRun_state_of_le h (Nat.le_max_right n as.length)] at hlast
  exact absurd hlast (hend k)

theorem ofRun_strongFair {mover : α → Option κ} {turn : σ → κ → Prop} {as : List α} {s : σ}
    (h : M.run as = some s) (hend : ∀ k, ¬ turn s k) : (ofRun as s h).StrongFair mover turn := by
  intro k n hturn
  obtain ⟨l, hl, hlast⟩ := hturn (max n as.length) (Nat.le_max_left n as.length)
  rw [ofRun_state_of_le h ((Nat.le_max_right n as.length).trans hl)] at hlast
  exact absurd hlast (hend k)

end Execution

end Runs
