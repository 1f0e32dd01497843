import CLIos.Lib.Lock
import Mathlib.Logic.Function.Basic

/-!
# Operations of an object in sections

What the threads of a `Code` do inside their calls: a thread invokes the operations
of an object that all share, one after the other, and an operation is carried out
in steps, `work`, between which any other thread may move.  It is over before the
call is left.

`Serial` says what operations do that are carried out one after the other, each
alone.  As long as no operation invoked without the mutex overlaps another one
(`Apart`), the object is what they make of it in the order in which they end, the
last one as far as it has come (`serial_of_apart`).
-/

namespace Locking

open Runs

/-- Of an operation, `ν` is what it keeps to itself between two steps. -/
structure Object (σ κ ν ρ : Type) where
  start : κ → ν
  micro : ν → σ → Option (σ × (ν ⊕ ρ))

structure Shared (π σ κ ν ρ : Type) where
  system : System π
  store : σ
  /-- the operation of each thread, if it has not ended -/
  active : Nat → Option (κ × ν)
  finished : List (κ × ρ)

inductive SharedEvent (π κ : Type) where
  | control (e : Event π)
  | invoke (t : Nat) (c : κ)
  | work (t : Nat)

variable {π σ κ ν ρ : Type}

/-- The thread that leaves its call. -/
def Event.leaver : Event π → Option Nat
  | .leave t _ => some t
  | _ => none

/-! ## One operation after the other -/

section

variable (O : Object σ κ ν ρ)

/-- Steps of one operation, and of no other. -/
inductive Works (l : ν) (s : σ) : ν → σ → Prop where
  | refl : Works l s l s
  | step {l₁ l₂ : ν} {s₁ s₂ : σ} (h : Works l s l₁ s₁)
      (hs : O.micro l₁ s₁ = some (s₂, .inl l₂)) : Works l s l₂ s₂

/-- The operation, carried out alone, returns `r`. -/
def Does (c : κ) (s s' : σ) (r : ρ) : Prop :=
  ∃ l₁ s₁, Works O (O.start c) s l₁ s₁ ∧ O.micro l₁ s₁ = some (s', .inr r)

inductive Serial (s₀ : σ) : List (κ × ρ) → σ → Prop where
  | nil : Serial s₀ [] s₀
  | concat {cs : List (κ × ρ)} {s s' : σ} {c : κ} {r : ρ} (h : Serial s₀ cs s)
      (hd : Does O c s s' r) : Serial s₀ (cs ++ [(c, r)]) s'

end

/-- What a function computes that every step leaves as it is, the operation does. -/
theorem Does.eq {O : Object σ κ ν ρ} {f : ν → σ → Option (σ × ρ)}
    (hstep : ∀ l s s' next, O.micro l s = some (s', next) →
      f l s = Sum.elim (fun l' => f l' s') (fun r => some (s', r)) next)
    {c : κ} {s s' : σ} {r : ρ} (h : Does O c s s' r) : f (O.start c) s = some (s', r) := by
  obtain ⟨l₁, s₁, hw, hr⟩ := h
  have hlast : f l₁ s₁ = some (s', r) := hstep l₁ s₁ s' (.inr r) hr
  rw [← hlast]
  clear hr hlast
  induction hw with
  | refl => rfl
  | step _ hs ih => exact ih.trans (hstep _ _ _ _ hs)

/-- If each operation, carried out alone, is a step of a machine, then a list of them is a run. -/
theorem Serial.run {O : Object σ κ ν ρ} {τ : Type} {N : Machine τ κ} {R : σ → List ρ → τ → Prop}
    {s₀ : σ} (hinit : R s₀ [] N.init)
    (hstep : ∀ s rs n c s' r, R s rs n → Does O c s s' r →
      ∃ n', N.step n c = some n' ∧ R s' (rs ++ [r]) n')
    {cs : List (κ × ρ)} {s : σ} (h : Serial O s₀ cs s) :
    ∃ n, N.run (cs.map Prod.fst) = some n ∧ R s (cs.map Prod.snd) n := by
  induction h with
  | nil => exact ⟨N.init, rfl, hinit⟩
  | concat h hd ih =>
    obtain ⟨n, hn, hR⟩ := ih
    obtain ⟨n', hn', hR'⟩ := hstep _ _ n _ _ _ hR hd
    refine ⟨n', ?_, ?_⟩
    · rw [List.map_append]
      exact (N.run_concat_eq_some _ _ n').mpr ⟨n, hn, hn'⟩
    · rw [List.map_append]
      exact hR'

/-! ## Many threads -/

section

variable (C : Code π) [DecidableEq π] (runs : π → Bool) (O : Object σ κ ν ρ)

namespace Shared

def onControl (s : Shared π σ κ ν ρ) (e : Event π) : Option (Shared π σ κ ν ρ) :=
  if (e.leaver.bind s.active).isSome then none
  else (C.step s.system e).map fun system => { s with system := system }

/-- `runs` are the points at which operations may be invoked. -/
def onInvoke (s : Shared π σ κ ν ρ) (t : Nat) (c : κ) : Option (Shared π σ κ ν ρ) :=
  s.system.threads[t]?.bind fun th =>
  if th.inside = true ∧ runs th.point = true ∧ (s.active t).isNone = true then
    some { s with active := Function.update s.active t (some (c, O.start c)) }
  else none

def onWork (s : Shared π σ κ ν ρ) (t : Nat) : Option (Shared π σ κ ν ρ) :=
  (s.active t).bind fun (c, l) =>
  (O.micro l s.store).map fun
    | (store, .inl l') =>
      { s with store := store, active := Function.update s.active t (some (c, l')) }
    | (store, .inr r) =>
      { s with
        store := store
        active := Function.update s.active t none
        finished := s.finished ++ [(c, r)] }

def step (s : Shared π σ κ ν ρ) : SharedEvent π κ → Option (Shared π σ κ ν ρ)
  | .control e => s.onControl C e
  | .invoke t c => s.onInvoke runs O t c
  | .work t => s.onWork O t

end Shared

def shared (s₀ : σ) : Machine (Shared π σ κ ν ρ) (SharedEvent π κ) where
  init := ⟨C.machine.init, s₀, fun _ => none, []⟩
  step := Shared.step C runs O

end

namespace Shared

/-- The thread is at a guarded point. -/
def guardedAt (guarded : π → Bool) (s : Shared π σ κ ν ρ) (t : Nat) : Bool :=
  s.system.threads[t]?.any fun a => guarded a.point

/-- An operation is invoked only if none is under way, or both under the mutex. -/
def Apart (guarded : π → Bool) (s : Shared π σ κ ν ρ) : SharedEvent π κ → Prop
  | .invoke t _ => ∀ u, u < s.system.threads.length → (s.active u).isSome = true →
      s.guardedAt guarded t = true ∧ s.guardedAt guarded u = true
  | _ => True

/-- An operation is invoked only under the mutex. -/
def Guarded (guarded : π → Bool) (s : Shared π σ κ ν ρ) : SharedEvent π κ → Prop
  | .invoke t _ => s.guardedAt guarded t = true
  | _ => True

/-- The operations were carried out one after the other, and there is one more at most. -/
inductive Progress (O : Object σ κ ν ρ) (s₀ : σ) (s : Shared π σ κ ν ρ) : Prop where
  | quiet (hactive : s.active = fun _ => none) (hs : Serial O s₀ s.finished s.store)
  | busy (t : Nat) (c : κ) (l : ν) (q : σ)
      (hactive : s.active = Function.update (fun _ => none) t (some (c, l)))
      (hs : Serial O s₀ s.finished q) (hw : Works O (O.start c) q l s.store)

structure Inv (C : Code π) (guarded : π → Bool) (O : Object σ κ ν ρ) (s₀ : σ)
    (s : Shared π σ κ ν ρ) : Prop where
  held : Held C guarded s.system
  inside : ∀ t, (s.active t).isSome = true → ∃ p, s.system.threads[t]? = some ⟨p, true⟩
  progress : s.Progress O s₀

end Shared

/-- A thread stays inside until it leaves. -/
theorem Stepped.stays {C : Code π} {s s' : System π} {e : Event π} (hs : Stepped C s e s')
    {t : Nat} {p : π} (ht : s.threads[t]? = some ⟨p, true⟩) (he : e.leaver ≠ some t) :
    s'.threads[t]? = some ⟨p, true⟩ := by
  have hset : ∀ (u : Nat) (x : Thread π), u ≠ t → (s.threads.set u x)[t]? = some ⟨p, true⟩ := by
    intro u x hut
    rw [List.getElem?_set_ne hut]
    exact ht
  have hout : ∀ (u : Nat) (q : π), s.threads[u]? = some ⟨q, false⟩ → u ≠ t := by
    rintro u q hu rfl
    cases hu.symm.trans ht
  have hpush : ∀ (l : List (Thread π)) (r : π), l[t]? = some ⟨p, true⟩ →
      (l ++ [⟨r, false⟩])[t]? = some ⟨p, true⟩ := by
    intro l r hl
    rw [List.getElem?_append_left (List.getElem?_eq_some_iff.mp hl).1]
    exact hl
  cases hs with
  | enter u q hu _ => exact hset u _ (hout u q hu)
  | leave u q r hu _ =>
    refine hset u _ ?_
    rintro rfl
    exact he rfl
  | take u q r hu _ _ _ => exact hset u _ (hout u q hu)
  | give u q r hu _ _ _ => exact hset u _ (hout u q hu)
  | pass u q r hu _ _ => exact hset u _ (hout u q hu)
  | create u q r x hu _ _ => exact hpush _ x (hset u _ (hout u q hu))
  | spawn u q r _ _ => exact hpush _ r ht

namespace Shared

variable {C : Code π} {runs guarded : π → Bool} {O : Object σ κ ν ρ} {s₀ : σ}
  {s s' : Shared π σ κ ν ρ}

theorem Inv.inside_update (h : s.Inv C guarded O s₀) {t : Nat}
    (ht : ∃ p, s.system.threads[t]? = some ⟨p, true⟩) (x : Option (κ × ν)) (u : Nat)
    (hu : (Function.update s.active t x u).isSome = true) :
    ∃ p, s.system.threads[u]? = some ⟨p, true⟩ := by
  by_cases hut : u = t
  · rw [hut]
    exact ht
  · rw [Function.update_of_ne hut] at hu
    exact h.inside u hu

/-- Two threads under the mutex are one, and so nothing is under way. -/
theorem Inv.onInvoke (h : s.Inv C guarded O s₀) {t : Nat} {c : κ}
    (hapart : s.Apart guarded (.invoke t c)) (hs : s.onInvoke runs O t c = some s') :
    s'.Inv C guarded O s₀ := by
  obtain ⟨⟨p, inside⟩, ht, hs⟩ := Option.bind_eq_some_iff.mp hs
  obtain ⟨⟨hin, -, hnone⟩, hs⟩ := Option.ite_none_right_eq_some.mp hs
  cases hs
  obtain rfl : inside = true := hin
  have hnone : s.active t = none := Option.isNone_iff_eq_none.mp hnone
  have hquiet : s.active = (fun _ => none) ∧ Serial O s₀ s.finished s.store := by
    cases h.progress with
    | quiet hactive hserial => exact ⟨hactive, hserial⟩
    | busy u c' l q hactive hserial hw =>
      have hu : s.active u = some (c', l) := by rw [hactive, Function.update_self]
      obtain ⟨p', hu'⟩ := h.inside u (by rw [hu]; rfl)
      have hlt := (List.getElem?_eq_some_iff.mp hu').1
      obtain ⟨hg, hg'⟩ := hapart u hlt (by rw [hu]; rfl)
      unfold guardedAt at hg hg'
      rw [ht] at hg
      rw [hu'] at hg'
      have hmutex := (h.held.owner t _ ht).mp hg
      have hmutex' := (h.held.owner u _ hu').mp hg'
      obtain rfl : t = u := Option.some.inj (hmutex.symm.trans hmutex')
      cases hnone.symm.trans hu
  refine ⟨h.held, h.inside_update ⟨p, ht⟩ _, .busy t c (O.start c) s.store ?_ hquiet.2 .refl⟩
  rw [hquiet.1]

theorem Inv.onWork (h : s.Inv C guarded O s₀) {t : Nat} (hs : s.onWork O t = some s') :
    s'.Inv C guarded O s₀ := by
  obtain ⟨⟨c, l⟩, ht, hs⟩ := Option.bind_eq_some_iff.mp hs
  obtain ⟨⟨store, next⟩, hmicro, rfl⟩ := Option.map_eq_some_iff.mp hs
  have hin := h.inside t (by rw [ht]; rfl)
  cases h.progress with
  | quiet hactive hserial =>
    rw [hactive] at ht
    cases ht
  | busy u c' l' q hactive hserial hw =>
    -- the operation that makes the step is the one under way
    obtain ⟨rfl, rfl, rfl⟩ : t = u ∧ c = c' ∧ l = l' := by
      rw [hactive] at ht
      by_cases htu : t = u
      · subst htu
        rw [Function.update_self] at ht
        cases ht
        exact ⟨rfl, rfl, rfl⟩
      · rw [Function.update_of_ne htu] at ht
        cases ht
    cases next with
    | inl l' =>
      refine ⟨h.held, h.inside_update hin _, .busy t c l' q ?_ hserial (hw.step hmicro)⟩
      show Function.update s.active t _ = _
      rw [hactive, Function.update_idem]
    | inr r =>
      refine ⟨h.held, h.inside_update hin _, .quiet ?_ (hserial.concat ⟨l, s.store, hw, hmicro⟩)⟩
      show Function.update s.active t none = _
      rw [hactive, Function.update_idem]
      exact Function.update_eq_self t _

variable [DecidableEq π]

theorem inv_init (D : Discipline C guarded) : (shared C runs O s₀).init.Inv C guarded O s₀ where
  held := held_init D
  inside := fun t ht => by cases ht
  progress := .quiet rfl .nil

theorem Inv.onControl (D : Discipline C guarded) (h : s.Inv C guarded O s₀) {e : Event π}
    (hs : s.onControl C e = some s') : s'.Inv C guarded O s₀ := by
  obtain ⟨hleave, hs⟩ := Option.ite_none_left_eq_some.mp hs
  obtain ⟨system, hsys, rfl⟩ := Option.map_eq_some_iff.mp hs
  have hstepped := Code.stepped hsys
  refine ⟨h.held.step D hstepped, fun t ht => ?_, ?_⟩
  · obtain ⟨p, hp⟩ := h.inside t ht
    refine ⟨p, hstepped.stays hp fun he => hleave ?_⟩
    rw [he]
    exact ht
  · cases h.progress with
    | quiet hactive hserial => exact .quiet hactive hserial
    | busy t c l q hactive hserial hw => exact .busy t c l q hactive hserial hw

theorem Inv.step (D : Discipline C guarded) (h : s.Inv C guarded O s₀) {e : SharedEvent π κ}
    (he : s.Apart guarded e) (hs : s.step C runs O e = some s') : s'.Inv C guarded O s₀ := by
  cases e with
  | control e => exact h.onControl D hs
  | invoke t c => exact h.onInvoke he hs
  | work t => exact h.onWork hs

end Shared

/-- **Sections.**  Operations that do not overlap without the mutex are carried out one
after the other, whatever the threads do meanwhile. -/
theorem serial_of_apart {C : Code π} [DecidableEq π] {guarded : π → Bool}
    (D : Discipline C guarded) (runs : π → Bool) (O : Object σ κ ν ρ) (s₀ : σ)
    (es : List (SharedEvent π κ)) (h : (shared C runs O s₀).Along (Shared.Apart guarded) es) :
    (shared C runs O s₀).Always (Shared.Progress O s₀) es :=
  Machine.always_mono (fun _ hinv => hinv.progress)
    (Machine.always_of_along (Shared.inv_init D) (fun _ _ _ hinv he hs => hinv.step D he hs) es h)

/-! ## Operations under the mutex -/

namespace Shared

/-- Who has an operation under way is inside, at a guarded point. -/
def AllGuarded (guarded : π → Bool) (s : Shared π σ κ ν ρ) : Prop :=
  ∀ t, (s.active t).isSome = true →
    ∃ p, s.system.threads[t]? = some ⟨p, true⟩ ∧ guarded p = true

variable {C : Code π} [DecidableEq π] {runs guarded : π → Bool} {O : Object σ κ ν ρ}
  {s s' : Shared π σ κ ν ρ}

theorem AllGuarded.step (h : s.AllGuarded guarded) {e : SharedEvent π κ}
    (he : s.Guarded guarded e) (hs : s.step C runs O e = some s') : s'.AllGuarded guarded := by
  intro t ht
  cases e with
  | control e =>
    obtain ⟨hleave, hs⟩ := Option.ite_none_left_eq_some.mp hs
    obtain ⟨system, hsys, rfl⟩ := Option.map_eq_some_iff.mp hs
    obtain ⟨p, hp, hg⟩ := h t ht
    refine ⟨p, (Code.stepped hsys).stays hp fun heq => hleave ?_, hg⟩
    rw [heq]
    exact ht
  | invoke u c =>
    obtain ⟨⟨p, inside⟩, hu, hs⟩ := Option.bind_eq_some_iff.mp hs
    obtain ⟨⟨hin, -, -⟩, hs⟩ := Option.ite_none_right_eq_some.mp hs
    cases hs
    obtain rfl : inside = true := hin
    by_cases htu : t = u
    · subst htu
      refine ⟨p, hu, ?_⟩
      have he : s.guardedAt guarded t = true := he
      unfold guardedAt at he
      rw [hu] at he
      exact he
    · have ht : (Function.update s.active u (some (c, O.start c)) t).isSome = true := ht
      rw [Function.update_of_ne htu] at ht
      exact h t ht
  | work u =>
    obtain ⟨⟨c, l⟩, hu, hs⟩ := Option.bind_eq_some_iff.mp hs
    obtain ⟨⟨store, next⟩, -, rfl⟩ := Option.map_eq_some_iff.mp hs
    have hold : ∀ x, (Function.update s.active u x t).isSome = true → (s.active t).isSome = true := by
      intro x hx
      by_cases htu : t = u
      · rw [htu, hu]
        rfl
      · rwa [Function.update_of_ne htu] at hx
    cases next <;> exact h t (hold _ ht)

/-- Operations under the mutex never overlap. -/
theorem apart_of_guarded (s₀ : σ) (es : List (SharedEvent π κ))
    (h : (shared C runs O s₀).Along (Guarded guarded) es) :
    (shared C runs O s₀).Along (Apart guarded) es := by
  have hall : (shared C runs O s₀).Always (AllGuarded guarded) es :=
    Machine.always_of_along (fun t ht => by cases ht)
      (fun _ _ _ hall he hs => hall.step he hs) es h
  intro l e s s' hl hs hs'
  have he := h l e s s' hl hs hs'
  cases e with
  | invoke t c =>
    intro u _ hu
    obtain ⟨p, hp, hg⟩ := hall l s ((List.prefix_append l _).trans hl) hs u hu
    refine ⟨he, ?_⟩
    unfold guardedAt
    rw [hp]
    exact hg
  | _ => trivial

end Shared

end Locking
