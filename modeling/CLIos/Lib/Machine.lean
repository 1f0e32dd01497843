import Mathlib.Data.List.Infix
import Mathlib.Data.List.Induction

/-!
# Labelled machines and their runs

A machine is an initial state and a partial step: `step s a = none` when the
label `a` is not enabled in `s` (or has no defined effect there).  A run is the
list of its labels.  Three things are said about a run `as`:

* `Always P as`: `P` holds in every state the run passes,
* `Along Q as`: `Q` holds of every step the run takes,
* `Throughout P as`: every prefix of the run is defined and `P` holds after it.

Each has one induction rule over runs.  The `iff` rules compare two of them:
they need an invariant that the good steps keep, and say what a single step
must satisfy; the induction is done here once.
-/

namespace Runs

/-- The prefixes of a run with a last label: up to that label, or shorter. -/
theorem concat_prefix_concat {α : Type} {l as : List α} {a b : α} :
    l ++ [b] <+: as ++ [a] ↔ (l = as ∧ b = a) ∨ l ++ [b] <+: as := by
  rw [List.prefix_concat_iff, List.append_singleton_inj]

theorem not_concat_prefix_nil {α : Type} (l : List α) (b : α) : ¬ l ++ [b] <+: [] := by
  rw [List.prefix_nil]
  exact List.append_ne_nil_of_right_ne_nil l (List.cons_ne_nil b [])

structure Machine (σ α : Type) where
  init : σ
  step : σ → α → Option σ

namespace Machine

variable {σ α : Type} (M : Machine σ α)

/-- The state after the labels `as`, if each was enabled in its turn. -/
def run (as : List α) : Option σ := as.foldlM M.step M.init

@[simp] theorem run_nil : M.run [] = some M.init := rfl

theorem run_concat (as : List α) (a : α) :
    M.run (as ++ [a]) = (M.run as).bind fun s => M.step s a := by
  unfold run
  rw [List.foldlM_append]
  cases h : List.foldlM M.step M.init as with
  | none => rfl
  | some s =>
    show List.foldlM M.step s [a] = M.step s a
    rw [List.foldlM_cons]
    cases h' : M.step s a <;> rfl

theorem run_concat_eq_some (as : List α) (a : α) (s' : σ) :
    M.run (as ++ [a]) = some s' ↔ ∃ s, M.run as = some s ∧ M.step s a = some s' := by
  rw [run_concat, Option.bind_eq_some_iff]

/-- What begins a defined run is itself a defined run. -/
theorem prefix_defined {as l : List α} {s : σ} (hl : l <+: as) (h : M.run as = some s) :
    ∃ s₀, M.run l = some s₀ := by
  obtain ⟨post, rfl⟩ := hl
  unfold run at h
  rw [List.foldlM_append] at h
  obtain ⟨s₀, hs₀, -⟩ := Option.bind_eq_some_iff.mp h
  exact ⟨s₀, hs₀⟩

def Always (P : σ → Prop) (as : List α) : Prop :=
  ∀ l s, l <+: as → M.run l = some s → P s

def Along (Q : σ → α → Prop) (as : List α) : Prop :=
  ∀ l a s s', l ++ [a] <+: as → M.run l = some s → M.step s a = some s' → Q s a

def Throughout (P : List α → σ → Prop) (as : List α) : Prop :=
  ∀ l, l <+: as → ∃ s, M.run l = some s ∧ P l s

/-! ## One label more -/

theorem always_nil (P : σ → Prop) : M.Always P [] ↔ P M.init := by
  constructor
  · intro h
    exact h [] M.init List.prefix_rfl rfl
  · intro h l s hl hs
    rw [List.prefix_nil.mp hl, run_nil] at hs
    rwa [← Option.some.inj hs]

theorem always_concat (P : σ → Prop) (as : List α) (a : α) :
    M.Always P (as ++ [a]) ↔ M.Always P as ∧ ∀ s', M.run (as ++ [a]) = some s' → P s' := by
  constructor
  · intro h
    exact ⟨fun l s hl hs => h l s (hl.trans (List.prefix_append as [a])) hs,
      fun s' hs' => h _ s' List.prefix_rfl hs'⟩
  · rintro ⟨h, hlast⟩ l s hl hs
    rcases List.prefix_concat_iff.mp hl with rfl | hl
    · exact hlast s hs
    · exact h l s hl hs

theorem along_nil (Q : σ → α → Prop) : M.Along Q [] := by
  intro l a s s' hl
  exact absurd hl (not_concat_prefix_nil l a)

theorem along_concat (Q : σ → α → Prop) (as : List α) (a : α) :
    M.Along Q (as ++ [a]) ↔ M.Along Q as ∧
      ∀ s s', M.run as = some s → M.step s a = some s' → Q s a := by
  constructor
  · intro h
    exact ⟨fun l b s s' hl => h l b s s' (hl.trans (List.prefix_append as [a])),
      fun s s' => h as a s s' List.prefix_rfl⟩
  · rintro ⟨h, hlast⟩ l b s s' hl hs hstep
    rcases concat_prefix_concat.mp hl with ⟨rfl, rfl⟩ | hl
    · exact hlast s s' hs hstep
    · exact h l b s s' hl hs hstep

theorem along_and (P Q : σ → α → Prop) (as : List α) :
    M.Along (fun s a => P s a ∧ Q s a) as ↔ M.Along P as ∧ M.Along Q as := by
  constructor
  · intro h
    exact ⟨fun l a s s' hl hs hs' => (h l a s s' hl hs hs').1,
      fun l a s s' hl hs hs' => (h l a s s' hl hs hs').2⟩
  · rintro ⟨hP, hQ⟩ l a s s' hl hs hs'
    exact ⟨hP l a s s' hl hs hs', hQ l a s s' hl hs hs'⟩

/-- A property of states is one of the steps that lead to them. -/
theorem always_iff_along_next (P : σ → Prop) (hinit : P M.init) (as : List α) :
    M.Always P as ↔ M.Along (fun s a => ∀ s', M.step s a = some s' → P s') as := by
  induction as using List.reverseRecOn with
  | nil => exact iff_of_true ((M.always_nil P).mpr hinit) (M.along_nil _)
  | append_singleton as a ih =>
    rw [always_concat, along_concat, ih]
    refine and_congr_right fun _ => ?_
    constructor
    · intro h s s' hs _ t ht
      exact h t ((M.run_concat_eq_some as a t).mpr ⟨s, hs, ht⟩)
    · intro h s' hs'
      obtain ⟨s, hs, hstep⟩ := (M.run_concat_eq_some as a s').mp hs'
      exact h s s' hs hstep s' hstep

theorem throughout_nil (P : List α → σ → Prop) : M.Throughout P [] ↔ P [] M.init := by
  constructor
  · intro h
    obtain ⟨s, hs, hP⟩ := h [] List.prefix_rfl
    rwa [← Option.some.inj hs] at hP
  · intro h l hl
    rw [List.prefix_nil.mp hl]
    exact ⟨M.init, rfl, h⟩

theorem throughout_concat (P : List α → σ → Prop) (as : List α) (a : α) :
    M.Throughout P (as ++ [a]) ↔
      M.Throughout P as ∧ ∃ s', M.run (as ++ [a]) = some s' ∧ P (as ++ [a]) s' := by
  constructor
  · intro h
    exact ⟨fun l hl => h l (hl.trans (List.prefix_append as [a])), h _ List.prefix_rfl⟩
  · rintro ⟨h, hlast⟩ l hl
    rcases List.prefix_concat_iff.mp hl with rfl | hl
    · exact hlast
    · exact h l hl

/-! ## The rules -/

variable {M}

/-- An invariant of the steps that meet `Q` holds all along a run of such steps. -/
theorem always_of_along {Q : σ → α → Prop} {I : σ → Prop} (hinit : I M.init)
    (hstep : ∀ s a s', I s → Q s a → M.step s a = some s' → I s') (as : List α)
    (h : M.Along Q as) : M.Always I as := by
  induction as using List.reverseRecOn with
  | nil => exact (M.always_nil I).mpr hinit
  | append_singleton as a ih =>
    obtain ⟨h, hlast⟩ := (M.along_concat Q as a).mp h
    refine (M.always_concat I as a).mpr ⟨ih h, fun s' hs' => ?_⟩
    obtain ⟨s, hs, hstep'⟩ := (M.run_concat_eq_some as a s').mp hs'
    exact hstep s a s' (ih h as s List.prefix_rfl hs) (hlast s s' hs hstep') hstep'

/-- An invariant of all steps holds all along every run. -/
theorem always_of_step {I : σ → Prop} (hinit : I M.init)
    (hstep : ∀ s a s', I s → M.step s a = some s' → I s') (as : List α) : M.Always I as :=
  always_of_along (Q := fun _ _ => True) hinit (fun s a s' hI _ hs => hstep s a s' hI hs) as
    fun _ _ _ _ _ _ _ => trivial

/-- Induction over the runs that are defined. -/
theorem run_induction {motive : (as : List α) → (s : σ) → M.run as = some s → Prop}
    (init : motive [] M.init rfl)
    (step : ∀ as s a s' (h : M.run as = some s) (hs : M.step s a = some s'), motive as s h →
      motive (as ++ [a]) s' ((M.run_concat_eq_some as a s').mpr ⟨s, h, hs⟩))
    (as : List α) (s : σ) (h : M.run as = some s) : motive as s h := by
  induction as using List.reverseRecOn generalizing s with
  | nil =>
    obtain rfl : M.init = s := Option.some.inj h
    exact init
  | append_singleton as a ih =>
    obtain ⟨s₀, h₀, ha⟩ := (M.run_concat_eq_some as a s).mp h
    exact step as s₀ a s h₀ ha (ih s₀ h₀)

/-- An invariant under which every step is defined. -/
theorem total_of_step {I : List α → σ → Prop} (hinit : I [] M.init)
    (hstep : ∀ l s a, I l s → ∃ s', M.step s a = some s' ∧ I (l ++ [a]) s') (as : List α) :
    ∃ s, M.run as = some s ∧ I as s := by
  induction as using List.reverseRecOn with
  | nil => exact ⟨M.init, rfl, hinit⟩
  | append_singleton as a ih =>
    obtain ⟨s, hs, hI⟩ := ih
    obtain ⟨s', hs', hI'⟩ := hstep as s a hI
    exact ⟨s', (M.run_concat_eq_some as a s').mpr ⟨s, hs, hs'⟩, hI'⟩

theorem always_mono {P I : σ → Prop} (hI : ∀ s, I s → P s) {as : List α} (h : M.Always I as) :
    M.Always P as :=
  fun l s hl hs => hI s (h l s hl hs)

/-- A property of states against a condition on steps. -/
theorem always_iff_along {P I : σ → Prop} {Q : σ → α → Prop} (hinit : I M.init)
    (hI : ∀ s, I s → P s)
    (hstep : ∀ s a s', I s → M.step s a = some s' → (Q s a → I s') ∧ (P s' → Q s a))
    (as : List α) : M.Always P as ↔ M.Along Q as := by
  constructor
  · intro h
    induction as using List.reverseRecOn with
    | nil => exact M.along_nil Q
    | append_singleton as a ih =>
      obtain ⟨h, hlast⟩ := (M.always_concat P as a).mp h
      refine (M.along_concat Q as a).mpr ⟨ih h, fun s s' hs hs' => ?_⟩
      have hIs : I s := always_of_along hinit (fun s a s' hIs hQ hs => (hstep s a s' hIs hs).1 hQ)
        as (ih h) as s List.prefix_rfl hs
      exact (hstep s a s' hIs hs').2 (hlast s' ((M.run_concat_eq_some as a s').mpr ⟨s, hs, hs'⟩))
  · intro h
    exact always_mono hI
      (always_of_along hinit (fun s a s' hIs hQ hs => (hstep s a s' hIs hs).1 hQ) as h)

/-- Two conditions on steps, equivalent wherever the invariant holds. -/
theorem along_iff_along {P Q : σ → α → Prop} {I : σ → Prop} (hinit : I M.init)
    (hstep : ∀ s a s', I s → M.step s a = some s' → (P s a ↔ Q s a) ∧ (Q s a → I s'))
    (as : List α) : M.Along P as ↔ M.Along Q as := by
  have hinv : ∀ as, M.Along Q as → M.Always I as :=
    always_of_along hinit fun s a s' hIs hQ hs => (hstep s a s' hIs hs).2 hQ
  induction as using List.reverseRecOn with
  | nil => exact iff_of_true (M.along_nil P) (M.along_nil Q)
  | append_singleton as a ih =>
    refine (M.along_concat P as a).trans (Iff.trans ?_ (M.along_concat Q as a).symm)
    refine (and_congr_left fun _ => ih).trans (and_congr_right fun hQ => ?_)
    have hIs := fun s hs => hinv as hQ as s List.prefix_rfl hs
    constructor
    · intro h s s' hs hs'
      exact ((hstep s a s' (hIs s hs) hs').1).mp (h s s' hs hs')
    · intro h s s' hs hs'
      exact ((hstep s a s' (hIs s hs) hs').1).mpr (h s s' hs hs')

/-- Definedness with a property, against a condition on the labels: `C l a`
speaks of the label `a` after the labels `l`. -/
theorem throughout_iff {P I : List α → σ → Prop} {C : List α → α → Prop} (hinit : I [] M.init)
    (hI : ∀ l s, I l s → P l s)
    (hgood : ∀ l s a, M.run l = some s → I l s → C l a →
      ∃ s', M.step s a = some s' ∧ I (l ++ [a]) s')
    (hbad : ∀ l s a s', M.run l = some s → I l s → M.step s a = some s' → P (l ++ [a]) s' → C l a)
    (as : List α) : M.Throughout P as ↔ ∀ l a, l ++ [a] <+: as → C l a := by
  have hinv : ∀ as, (∀ l a, l ++ [a] <+: as → C l a) → M.Throughout I as := by
    intro as
    induction as using List.reverseRecOn with
    | nil => exact fun _ => (M.throughout_nil I).mpr hinit
    | append_singleton as a ih =>
      intro h
      have hI' := ih fun l b hl => h l b (hl.trans (List.prefix_append as [a]))
      obtain ⟨s, hs, hIs⟩ := hI' as List.prefix_rfl
      obtain ⟨s', hs', hIs'⟩ := hgood as s a hs hIs (h as a List.prefix_rfl)
      exact (M.throughout_concat I as a).mpr
        ⟨hI', s', (M.run_concat_eq_some as a s').mpr ⟨s, hs, hs'⟩, hIs'⟩
  constructor
  · induction as using List.reverseRecOn with
    | nil =>
      intro _ l a hl
      exact absurd hl (not_concat_prefix_nil l a)
    | append_singleton as a ih =>
      intro h l b hl
      obtain ⟨hpre, s', hs', hP⟩ := (M.throughout_concat P as a).mp h
      rcases concat_prefix_concat.mp hl with ⟨rfl, rfl⟩ | hl
      · obtain ⟨s, hs, hIs⟩ := hinv l (ih hpre) l List.prefix_rfl
        obtain ⟨t, ht, hstep⟩ := (M.run_concat_eq_some l b s').mp hs'
        obtain rfl : s = t := Option.some.inj (hs.symm.trans ht)
        exact hbad l s b s' hs hIs hstep hP
      · exact ih hpre l b hl
  · intro h l hl
    obtain ⟨s, hs, hIs⟩ := hinv as h l hl
    exact ⟨s, hs, hI l s hIs⟩

section

variable {τ β : Type}

/-- A step of `M` is a few steps of `N`, and so every run of `M` is one of `N`. -/
theorem run_of_relation {N : Machine τ β} {R : σ → τ → Prop} (labels : α → List β)
    (hinit : R M.init N.init)
    (hstep : ∀ s t a s', R s t → M.step s a = some s' →
      ∃ t', (labels a).foldlM N.step t = some t' ∧ R s' t')
    (as : List α) (s : σ) (h : M.run as = some s) :
    ∃ t, N.run (as.flatMap labels) = some t ∧ R s t := by
  induction as, s, h using run_induction with
  | init => exact ⟨N.init, rfl, hinit⟩
  | step as s₀ a s h₀ ha ih =>
    obtain ⟨t₀, ht₀, hR⟩ := ih
    obtain ⟨t, ht, hR'⟩ := hstep s₀ t₀ a s hR ha
    refine ⟨t, ?_, hR'⟩
    have hpre : (as.flatMap labels).foldlM N.step N.init = some t₀ := ht₀
    unfold run
    rw [List.flatMap_append, List.foldlM_append, hpre, List.flatMap_singleton]
    exact ht

/-- One machine inside another: every run of `M` is, seen through `f`, a run of `N`. -/
theorem run_of_simulation {N : Machine τ β} (f : σ → τ) (labels : α → List β)
    (hinit : f M.init = N.init)
    (hstep : ∀ s a s', M.step s a = some s' → (labels a).foldlM N.step (f s) = some (f s'))
    (as : List α) (s : σ) (h : M.run as = some s) : N.run (as.flatMap labels) = some (f s) := by
  have hrel : ∀ s t a s', f s = t → M.step s a = some s' →
      ∃ t', (labels a).foldlM N.step t = some t' ∧ f s' = t' := by
    rintro s t a s' rfl hs
    exact ⟨f s', hstep s a s' hs, rfl⟩
  obtain ⟨t, ht, rfl⟩ := run_of_relation labels hinit hrel as s h
  exact ht

/-- The same labels, and steps that agree through `f`, also where they are not defined. -/
theorem run_map {N : Machine τ α} (f : σ → τ) (hinit : f M.init = N.init)
    (hstep : ∀ s a, (M.step s a).map f = N.step (f s) a) (as : List α) :
    (M.run as).map f = N.run as := by
  induction as using List.reverseRecOn with
  | nil => exact congrArg some hinit
  | append_singleton as a ih =>
    rw [run_concat, run_concat, ← ih]
    cases M.run as with
    | none => rfl
    | some s => exact hstep s a

end

/-! ## Checking a concrete run -/

/-- The machine started in another state. -/
def restart (M : Machine σ α) (s : σ) : Machine σ α := { M with init := s }

def checkAlong (M : Machine σ α) (Q : σ → α → Prop) [∀ s a, Decidable (Q s a)] :
    σ → List α → Bool
  | _, [] => true
  | s, a :: as =>
    match M.step s a with
    | none => true
    | some s' => decide (Q s a) && checkAlong M Q s' as

theorem run_cons (a : α) (as : List α) :
    M.run (a :: as) = (M.step M.init a).bind fun s => (M.restart s).run as := by
  unfold run
  rw [List.foldlM_cons]
  cases M.step M.init a <;> rfl

theorem along_cons (Q : σ → α → Prop) (a : α) (as : List α)
    (h : ∀ s', M.step M.init a = some s' → Q M.init a ∧ (M.restart s').Along Q as) :
    M.Along Q (a :: as) := by
  intro l b s s' hl hs hstep
  cases l with
  | nil =>
    obtain rfl : b = a := by simpa using hl
    obtain rfl : M.init = s := Option.some.inj hs
    exact (h s' hstep).1
  | cons c l =>
    rw [List.cons_append, List.cons_prefix_cons] at hl
    obtain ⟨rfl, hl⟩ := hl
    rw [run_cons, Option.bind_eq_some_iff] at hs
    obtain ⟨s₁, h₁, hs⟩ := hs
    exact (h s₁ h₁).2 l b s s' hl hs hstep

/-- What a run meets, it meets in its first step and from there on. -/
theorem of_along_cons {Q : σ → α → Prop} {a : α} {as : List α} {s : σ} (h : M.Along Q (a :: as))
    (hs : M.step M.init a = some s) : Q M.init a ∧ (M.restart s).Along Q as := by
  refine ⟨h [] a M.init s (List.prefix_append [a] as) rfl hs, fun l b t t' hl ht hstep => ?_⟩
  refine h (a :: l) b t t' (List.cons_prefix_cons.mpr ⟨rfl, hl⟩) ?_ hstep
  rw [run_cons, hs]
  exact ht

theorem always_cons (P : σ → Prop) (a : α) (as : List α) (hinit : P M.init)
    (h : ∀ s, M.step M.init a = some s → (M.restart s).Always P as) : M.Always P (a :: as) := by
  intro l t hl ht
  cases l with
  | nil =>
    obtain rfl : M.init = t := Option.some.inj ht
    exact hinit
  | cons b l =>
    rw [List.cons_prefix_cons] at hl
    obtain ⟨rfl, hl⟩ := hl
    rw [run_cons, Option.bind_eq_some_iff] at ht
    obtain ⟨s, hs, ht⟩ := ht
    exact h s hs l t hl ht

theorem along_of_check (Q : σ → α → Prop) [∀ s a, Decidable (Q s a)] (as : List α)
    (h : M.checkAlong Q M.init as = true) : M.Along Q as := by
  induction as generalizing M with
  | nil => exact M.along_nil Q
  | cons a as ih =>
    refine along_cons Q a as fun s' hs' => ?_
    unfold checkAlong at h
    rw [hs', Bool.and_eq_true, decide_eq_true_iff] at h
    refine ⟨h.1, ih (M := M.restart s') ?_⟩
    have hsame : ∀ s as, checkAlong (M.restart s') Q s as = checkAlong M Q s as := by
      intro s as
      induction as generalizing s with
      | nil => rfl
      | cons b bs ihb =>
        unfold checkAlong
        show (match M.step s b with
          | none => true
          | some t => decide (Q s b) && checkAlong (M.restart s') Q t bs) = _
        cases M.step s b with
        | none => rfl
        | some t => simp only [ihb]
    rw [hsame]
    exact h.2

end Machine

end Runs
