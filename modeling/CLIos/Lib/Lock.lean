import Mathlib.Data.List.Basic
import CLIos.Lib.Machine

/-!
# Threads around one mutex

A `Code` is a flow graph of program points.  At each point a thread takes the
mutex, gives it, calls into the shared object, creates another thread, or does
something that concerns neither.  A call is two steps, `enter` and `leave`; the
code it runs may spawn threads of its own.  Any number of threads run the same
graph from points of their own.

A `Discipline` says which points are `guarded`: those reached with the mutex
taken.  Threads at guarded points exclude each other, so the shared object is
used by one thread at a time as long as no unguarded section meets another one
(`exclusive_iff`).
-/

namespace Locking

open Runs

inductive Op (π : Type) where
  | take
  | give
  | call
  | pass
  | create (p : π)
deriving DecidableEq

structure Code (π : Type) where
  start : π
  op : π → Op π
  next : π → List π
  /-- the threads that the code run by a call may start -/
  spawns : π → List π

structure Thread (π : Type) where
  point : π
  inside : Bool

structure System (π : Type) where
  mutex : Option Nat
  threads : List (Thread π)

inductive Event (π : Type) where
  | enter (t : Nat)
  | leave (t : Nat) (q : π)
  | move (t : Nat) (q : π)
  | spawn (t : Nat) (p : π)

variable {π : Type}

namespace System

def goto (s : System π) (t : Nat) (q : π) : System π :=
  { s with threads := s.threads.set t ⟨q, false⟩ }

def push (s : System π) (p : π) : System π :=
  { s with threads := s.threads ++ [⟨p, false⟩] }

/-- No two threads are between an enter and its leave. -/
def Exclusive (s : System π) : Prop :=
  ∀ (t u : Nat) (a b : Thread π), s.threads[t]? = some a → s.threads[u]? = some b →
    a.inside = true → b.inside = true → t = u

end System

namespace Code

variable (C : Code π) [DecidableEq π]

/-- The thread `t` goes on to `q`, past anything but a call. -/
def moveTo (s : System π) (t : Nat) (p q : π) : Option (System π) :=
  match C.op p with
  | .take => if s.mutex = none then some { s.goto t q with mutex := some t } else none
  | .give => if s.mutex = some t then some { s.goto t q with mutex := none } else none
  | .call => none
  | .pass => some (s.goto t q)
  | .create r => some ((s.goto t q).push r)

def step (s : System π) : Event π → Option (System π)
  | .enter t =>
    s.threads[t]?.bind fun th =>
    if th.inside = false ∧ C.op th.point = .call then
      some { s with threads := s.threads.set t ⟨th.point, true⟩ }
    else none
  | .leave t q =>
    s.threads[t]?.bind fun th =>
    if th.inside = true ∧ q ∈ C.next th.point then some (s.goto t q) else none
  | .move t q =>
    s.threads[t]?.bind fun th =>
    if th.inside = false ∧ q ∈ C.next th.point then C.moveTo s t th.point q else none
  | .spawn t p =>
    s.threads[t]?.bind fun th =>
    if th.inside = true ∧ p ∈ C.spawns th.point then some (s.push p) else none

def machine : Machine (System π) (Event π) where
  init := ⟨none, [⟨C.start, false⟩]⟩
  step := C.step

end Code

/-! ## What a step can do -/

theorem getElem?_set_cases {α : Type} {l : List α} {t u : Nat} {x y b : α} (ht : l[t]? = some y)
    (h : (l.set t x)[u]? = some b) : (u = t ∧ b = x) ∨ (u ≠ t ∧ l[u]? = some b) := by
  by_cases hut : u = t
  · subst hut
    rw [List.getElem?_set_self (List.getElem?_eq_some_iff.mp ht).1] at h
    exact Or.inl ⟨rfl, (Option.some.inj h).symm⟩
  · rw [List.getElem?_set_ne (Ne.symm hut)] at h
    exact Or.inr ⟨hut, h⟩

theorem getElem?_concat_cases {α : Type} {l : List α} {u : Nat} {x b : α}
    (h : (l ++ [x])[u]? = some b) : l[u]? = some b ∨ (u = l.length ∧ b = x) := by
  by_cases hlt : u < l.length
  · rw [List.getElem?_append_left hlt] at h
    exact Or.inl h
  · rw [List.getElem?_append_right (by omega), List.getElem?_singleton] at h
    split at h
    · exact Or.inr ⟨by omega, (Option.some.inj h).symm⟩
    · cases h

/-- A step puts one thread somewhere (`mutex'` is the mutex then), or adds one. -/
inductive Stepped (C : Code π) (s : System π) : Event π → System π → Prop where
  | enter (t : Nat) (p : π) (h : s.threads[t]? = some ⟨p, false⟩) (hop : C.op p = .call) :
      Stepped C s (.enter t) { s with threads := s.threads.set t ⟨p, true⟩ }
  | leave (t : Nat) (p q : π) (h : s.threads[t]? = some ⟨p, true⟩) (hq : q ∈ C.next p) :
      Stepped C s (.leave t q) (s.goto t q)
  | take (t : Nat) (p q : π) (h : s.threads[t]? = some ⟨p, false⟩) (hq : q ∈ C.next p)
      (hop : C.op p = .take) (hm : s.mutex = none) :
      Stepped C s (.move t q) { s.goto t q with mutex := some t }
  | give (t : Nat) (p q : π) (h : s.threads[t]? = some ⟨p, false⟩) (hq : q ∈ C.next p)
      (hop : C.op p = .give) (hm : s.mutex = some t) :
      Stepped C s (.move t q) { s.goto t q with mutex := none }
  | pass (t : Nat) (p q : π) (h : s.threads[t]? = some ⟨p, false⟩) (hq : q ∈ C.next p)
      (hop : C.op p = .pass) : Stepped C s (.move t q) (s.goto t q)
  | create (t : Nat) (p q r : π) (h : s.threads[t]? = some ⟨p, false⟩) (hq : q ∈ C.next p)
      (hop : C.op p = .create r) : Stepped C s (.move t q) ((s.goto t q).push r)
  | spawn (t : Nat) (p r : π) (h : s.threads[t]? = some ⟨p, true⟩) (hr : r ∈ C.spawns p) :
      Stepped C s (.spawn t r) (s.push r)

theorem Code.stepped [DecidableEq π] {C : Code π} {s s' : System π} {e : Event π}
    (h : C.step s e = some s') : Stepped C s e s' := by
  cases e with
  | enter t =>
    obtain ⟨⟨p, inside⟩, hth, h⟩ := Option.bind_eq_some_iff.mp h
    split at h
    · next hc =>
      obtain ⟨rfl, hop⟩ := hc
      cases h
      exact .enter t p hth hop
    · cases h
  | leave t q =>
    obtain ⟨⟨p, inside⟩, hth, h⟩ := Option.bind_eq_some_iff.mp h
    split at h
    · next hc =>
      obtain ⟨rfl, hq⟩ := hc
      cases h
      exact .leave t p q hth hq
    · cases h
  | move t q =>
    obtain ⟨⟨p, inside⟩, hth, h⟩ := Option.bind_eq_some_iff.mp h
    split at h
    · next hc =>
      obtain ⟨rfl, hq⟩ := hc
      have h : C.moveTo s t p q = some s' := h
      unfold Code.moveTo at h
      cases hop : C.op p with
      | take =>
        rw [hop] at h
        by_cases hm : s.mutex = none
        · simp only [hm, if_true] at h
          cases h
          exact .take t p q hth hq hop hm
        · simp [hm] at h
      | give =>
        rw [hop] at h
        by_cases hm : s.mutex = some t
        · simp only [hm, if_true] at h
          cases h
          exact .give t p q hth hq hop hm
        · simp [hm] at h
      | call => rw [hop] at h; cases h
      | pass =>
        rw [hop] at h
        cases h
        exact .pass t p q hth hq hop
      | create r =>
        rw [hop] at h
        cases h
        exact .create t p q r hth hq hop
    · cases h
  | spawn t r =>
    obtain ⟨⟨p, inside⟩, hth, h⟩ := Option.bind_eq_some_iff.mp h
    split at h
    · next hc =>
      obtain ⟨rfl, hr⟩ := hc
      cases h
      exact .spawn t p r hth hr
    · cases h

/-! ## The discipline -/

/-- `guarded` marks the points that are reached with the mutex taken. -/
structure Discipline (C : Code π) (guarded : π → Bool) : Prop where
  start : guarded C.start = false
  take : ∀ p, C.op p = .take → guarded p = false ∧ ∀ q ∈ C.next p, guarded q = true
  give : ∀ p, C.op p = .give → guarded p = true ∧ ∀ q ∈ C.next p, guarded q = false
  call : ∀ p, C.op p = .call → ∀ q ∈ C.next p, guarded q = guarded p
  pass : ∀ p, C.op p = .pass → ∀ q ∈ C.next p, guarded q = guarded p
  create : ∀ p r, C.op p = .create r →
    guarded r = false ∧ ∀ q ∈ C.next p, guarded q = guarded p
  spawns : ∀ p, ∀ r ∈ C.spawns p, guarded r = false

/-- The mutex belongs to the thread at a guarded point, if there is one. -/
structure Held (C : Code π) (guarded : π → Bool) (s : System π) : Prop where
  owner : ∀ (t : Nat) (a : Thread π), s.threads[t]? = some a → (guarded a.point = true ↔ s.mutex = some t)
  bound : ∀ t, s.mutex = some t → t < s.threads.length
  call : ∀ (t : Nat) (a : Thread π), s.threads[t]? = some a → a.inside = true → C.op a.point = .call

variable {C : Code π} {guarded : π → Bool} {s : System π}

theorem held_init (D : Discipline C guarded) : Held C guarded ⟨none, [⟨C.start, false⟩]⟩ := by
  have hone : ∀ (t : Nat) (a : Thread π), [Thread.mk C.start false][t]? = some a →
      a = ⟨C.start, false⟩ := by
    intro t a h
    exact List.mem_singleton.mp (List.mem_of_getElem? h)
  refine ⟨fun t a h => ?_, by simp, fun t a h hin => ?_⟩
  · rw [hone t a h]
    simp [D.start]
  · rw [hone t a h] at hin
    cases hin

/-- One thread moves; the mutex changes hands only as far as it is concerned. -/
theorem Held.set (h : Held C guarded s) {t : Nat} {p : π} {inside : Bool} {th : Thread π}
    {mutex : Option Nat} (hth : s.threads[t]? = some th)
    (hself : guarded p = true ↔ mutex = some t)
    (hother : ∀ u, u ≠ t → (mutex = some u ↔ s.mutex = some u))
    (hcall : inside = true → C.op p = .call) :
    Held C guarded ⟨mutex, s.threads.set t ⟨p, inside⟩⟩ := by
  have ht : t < s.threads.length := (List.getElem?_eq_some_iff.mp hth).1
  refine ⟨fun u a hu => ?_, fun u hu => ?_, fun u a hu hin => ?_⟩
  · rcases getElem?_set_cases hth hu with ⟨rfl, rfl⟩ | ⟨hne, hu⟩
    · exact hself
    · exact (h.owner u a hu).trans (hother u hne).symm
  · rw [List.length_set]
    by_cases hut : u = t
    · omega
    · exact h.bound u ((hother u hut).mp hu)
  · rcases getElem?_set_cases hth hu with ⟨rfl, rfl⟩ | ⟨-, hu⟩
    · exact hcall hin
    · exact h.call u a hu hin

theorem Held.push (h : Held C guarded s) {p : π} (hp : guarded p = false) :
    Held C guarded (s.push p) := by
  refine ⟨fun u a hu => ?_, fun u hu => ?_, fun u a hu hin => ?_⟩
  · rcases getElem?_concat_cases hu with hu | ⟨rfl, rfl⟩
    · exact h.owner u a hu
    · refine iff_of_false (by simp [hp]) fun hm => ?_
      have := h.bound _ hm
      omega
  · have := h.bound u hu
    show u < (s.threads ++ [_]).length
    rw [List.length_append]
    omega
  · rcases getElem?_concat_cases hu with hu | ⟨rfl, rfl⟩
    · exact h.call u a hu hin
    · cases hin

/-- A thread that neither takes nor gives stays on its side of the mutex. -/
theorem Held.goto (h : Held C guarded s) {t : Nat} {th : Thread π} {q : π}
    (hth : s.threads[t]? = some th) (hq : guarded q = guarded th.point) :
    Held C guarded (s.goto t q) :=
  h.set hth (by rw [hq]; exact h.owner t th hth) (fun _ _ => Iff.rfl) (by simp)

theorem Held.step (D : Discipline C guarded) (h : Held C guarded s) {e : Event π}
    {s' : System π} (hs : Stepped C s e s') : Held C guarded s' := by
  cases hs with
  | enter t p hth hop =>
    exact h.set hth (h.owner t _ hth) (fun _ _ => Iff.rfl) fun _ => hop
  | leave t p q hth hq => exact h.goto hth (D.call p (h.call t _ hth rfl) q hq)
  | take t p q hth hq hop hm =>
    refine h.set hth (iff_of_true ((D.take p hop).2 q hq) rfl) (fun u hu => ?_) (by simp)
    rw [hm]
    simpa using Ne.symm hu
  | give t p q hth hq hop hm =>
    refine h.set hth (iff_of_false (by simp [(D.give p hop).2 q hq]) (by simp)) (fun u hu => ?_)
      (by simp)
    rw [hm]
    simpa using Ne.symm hu
  | pass t p q hth hq hop => exact h.goto hth (D.pass p hop q hq)
  | create t p q r hth hq hop =>
    exact (h.goto hth ((D.create p r hop).2 q hq)).push (D.create p r hop).1
  | spawn t p r hth hr => exact h.push (D.spawns p r hr)

/-! ## Exclusion -/

/-- A thread enters only if it and all those inside are at guarded points. -/
def Apart (guarded : π → Bool) (s : System π) : Event π → Prop
  | .enter t => ∀ (u : Nat) (a b : Thread π), s.threads[t]? = some a → s.threads[u]? = some b →
      u ≠ t → b.inside = true → guarded a.point = true ∧ guarded b.point = true
  | _ => True

/-- Only `enter` puts a thread inside. -/
theorem Stepped.inside {e : Event π} {s' : System π} (hs : Stepped C s e s') {u : Nat}
    {b : Thread π} (hu : s'.threads[u]? = some b) (hb : b.inside = true) :
    (∃ p, e = .enter u ∧ s.threads[u]? = some ⟨p, false⟩ ∧ b = ⟨p, true⟩) ∨
      s.threads[u]? = some b := by
  have hgoto : ∀ (t : Nat) (q : π) (y : Thread π), s.threads[t]? = some y →
      (s.goto t q).threads[u]? = some b → s.threads[u]? = some b := by
    intro t q y ht h
    rcases getElem?_set_cases ht h with ⟨-, rfl⟩ | ⟨-, h⟩
    · cases hb
    · exact h
  have hpush : ∀ (l : List (Thread π)) (r : π), (l ++ [⟨r, false⟩])[u]? = some b →
      l[u]? = some b := by
    intro l r h
    rcases getElem?_concat_cases h with h | ⟨-, rfl⟩
    · exact h
    · cases hb
  cases hs with
  | enter t p hth hop =>
    rcases getElem?_set_cases hth hu with ⟨rfl, rfl⟩ | ⟨-, h⟩
    · exact Or.inl ⟨p, rfl, hth, rfl⟩
    · exact Or.inr h
  | leave t p q hth hq => exact Or.inr (hgoto t q _ hth hu)
  | take t p q hth hq hop hm => exact Or.inr (hgoto t q _ hth hu)
  | give t p q hth hq hop hm => exact Or.inr (hgoto t q _ hth hu)
  | pass t p q hth hq hop => exact Or.inr (hgoto t q _ hth hu)
  | create t p q r hth hq hop => exact Or.inr (hgoto t q _ hth (hpush _ r hu))
  | spawn t p r hth hr => exact Or.inr (hpush _ r hu)

theorem exclusive_step (hI : Held C guarded s) (hx : s.Exclusive) {e : Event π} {s' : System π}
    (hs : Stepped C s e s') (hq : Apart guarded s e) : s'.Exclusive := by
  -- two threads inside: one has just entered, and the mutex cannot have two owners
  have hnew : ∀ (t u : Nat) (p : π) (b : Thread π), e = .enter t →
      s.threads[t]? = some ⟨p, false⟩ → s.threads[u]? = some b → b.inside = true → t = u := by
    intro t u p b he ht hu hb
    subst he
    by_contra hne
    obtain ⟨hg, hg'⟩ := hq u _ b ht hu (Ne.symm hne) hb
    have h₁ := (hI.owner t _ ht).mp hg
    have h₂ := (hI.owner u b hu).mp hg'
    exact hne (Option.some.inj (h₁.symm.trans h₂))
  intro t u a b ht hu ha hb
  rcases hs.inside ht ha with ⟨p, he, ht', -⟩ | ht'
  · rcases hs.inside hu hb with ⟨p', he', -, -⟩ | hu'
    · rw [he] at he'
      cases he'
      rfl
    · exact hnew t u p b he ht' hu' hb
  · rcases hs.inside hu hb with ⟨p', he', hu', -⟩ | hu'
    · exact (hnew u t p' a he' hu' ht' ha).symm
    · exact hx t u a b ht' hu' ha hb

theorem apart_of_exclusive {e : Event π} {s' : System π} (hs : Stepped C s e s')
    (hx : s'.Exclusive) : Apart guarded s e := by
  cases hs with
  | enter t p hth hop =>
    intro u a b ha hu hne hb
    have ht : t < s.threads.length := (List.getElem?_eq_some_iff.mp hth).1
    have hself : (s.threads.set t ⟨p, true⟩)[t]? = some ⟨p, true⟩ := List.getElem?_set_self ht
    have hother : (s.threads.set t ⟨p, true⟩)[u]? = some b := by
      rw [List.getElem?_set_ne (Ne.symm hne)]
      exact hu
    exact absurd (hx t u _ b hself hother rfl hb).symm hne
  | _ => trivial

/-- **Exclusion.**  Under a discipline the threads exclude each other in exactly
the runs in which no unguarded section overlaps another section. -/
theorem exclusive_iff [DecidableEq π] (D : Discipline C guarded) (es : List (Event π)) :
    C.machine.Always System.Exclusive es ↔ C.machine.Along (Apart guarded) es := by
  apply Machine.always_iff_along (I := fun s => Held C guarded s ∧ s.Exclusive)
  · refine ⟨held_init D, fun t u a b ht _ ha _ => ?_⟩
    have : a = ⟨C.start, false⟩ := List.mem_singleton.mp (List.mem_of_getElem? ht)
    rw [this] at ha
    cases ha
  · exact fun s h => h.2
  · intro s e s' ⟨hI, hx⟩ h
    have hs := Code.stepped h
    exact ⟨fun hq => ⟨hI.step D hs, exclusive_step hI hx hs hq⟩, apart_of_exclusive hs⟩

/-! ## Before there are other threads -/

/-- The first point is never reached again and its call starts no thread. -/
structure Initial (C : Code π) : Prop where
  next : ∀ p, ∀ q ∈ C.next p, q ≠ C.start
  spawns : ∀ p, ∀ r ∈ C.spawns p, r ≠ C.start
  create : ∀ p r, C.op p = .create r → r ≠ C.start
  spawnsNone : C.spawns C.start = []

/-- A thread at the first point is the only one. -/
def Alone (C : Code π) (s : System π) : Prop :=
  ∀ (t : Nat) (a : Thread π), s.threads[t]? = some a → a.point = C.start → s.threads.length = 1

theorem alone_init : Alone C ⟨none, [⟨C.start, false⟩]⟩ := fun _ _ _ _ => rfl

theorem Alone.point_ne (h : Alone C s) {t u : Nat} {a b : Thread π} (ht : s.threads[t]? = some a)
    (hu : s.threads[u]? = some b) (hne : u ≠ t) : a.point ≠ C.start := by
  intro ha
  have hone := h t a ht ha
  have hlt : t < s.threads.length := (List.getElem?_eq_some_iff.mp ht).1
  have hlu : u < s.threads.length := (List.getElem?_eq_some_iff.mp hu).1
  omega

theorem Alone.set (h : Alone C s) {t : Nat} {th x : Thread π} (hth : s.threads[t]? = some th)
    (hx : x.point = C.start → th.point = C.start) (mutex : Option Nat) :
    Alone C ⟨mutex, s.threads.set t x⟩ := by
  intro u a hu ha
  show (s.threads.set t x).length = 1
  rw [List.length_set]
  rcases getElem?_set_cases hth hu with ⟨rfl, rfl⟩ | ⟨-, hu⟩
  · exact h u th hth (hx ha)
  · exact h u a hu ha

/-- A thread is added by one that has left the first point, so no thread is there. -/
theorem Alone.push (h : Alone C s) {t : Nat} {th : Thread π} {r : π}
    (hth : s.threads[t]? = some th) (hne : th.point ≠ C.start) (hr : r ≠ C.start) :
    Alone C (s.push r) := by
  intro u a hu ha
  rcases getElem?_concat_cases hu with hu | ⟨-, rfl⟩
  · by_cases htu : t = u
    · subst htu
      rw [hth] at hu
      cases hu
      exact absurd ha hne
    · exact absurd ha (h.point_ne hu hth htu)
  · exact absurd ha hr

theorem Alone.step (F : Initial C) (h : Alone C s) {e : Event π} {s' : System π}
    (hs : Stepped C s e s') : Alone C s' := by
  cases hs with
  | enter t p hth hop => exact h.set hth (x := ⟨p, true⟩) id s.mutex
  | leave t p q hth hq => exact h.set hth (fun hx => absurd hx (F.next p q hq)) s.mutex
  | take t p q hth hq hop hm => exact h.set hth (fun hx => absurd hx (F.next p q hq)) (some t)
  | give t p q hth hq hop hm => exact h.set hth (fun hx => absurd hx (F.next p q hq)) none
  | pass t p q hth hq hop => exact h.set hth (fun hx => absurd hx (F.next p q hq)) s.mutex
  | create t p q r hth hq hop =>
    have hset : Alone C (s.goto t q) := h.set hth (fun hx => absurd hx (F.next p q hq)) s.mutex
    have hself : (s.goto t q).threads[t]? = some ⟨q, false⟩ :=
      List.getElem?_set_self (List.getElem?_eq_some_iff.mp hth).1
    exact hset.push hself (F.next p q hq) (F.create p r hop)
  | spawn t p r hth hr =>
    refine h.push hth (fun hp => ?_) (F.spawns p r hr)
    have hp : p = C.start := hp
    rw [hp, F.spawnsNone] at hr
    cases hr

end Locking
