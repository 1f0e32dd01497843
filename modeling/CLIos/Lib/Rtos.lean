import Mathlib.Data.List.Basic

/-!
# Queues, mutexes and counting semaphores

The objects of a kernel on which its tasks `τ` wait: a bounded queue of `ι`, a
mutex with a holder and a counting semaphore.  `serve` is one try of a task.
Either the request is done, perhaps with a value, or the task has to wait and
try again, or the kernel stops: the object is of another kind, or the mutex is
held by another task than the one that unlocks it.

`send`, `receive`, `lock` and `take` may have to wait; `unlock` and `give` come
back at once, and do nothing to an object that is free already.

A queue is first in, first out: what was put in is what was taken out and, after
it, what is still there (`Conserved`).
-/

namespace Rtos

inductive Object (τ ι : Type) where
  | queue (length : Nat) (items : List ι)
  | mutex (holder : Option τ)
  | semaphore (max count : Nat)
deriving DecidableEq

inductive Request (ι : Type) where
  | send (v : ι)
  | receive
  | lock
  | unlock
  | take
  | give
deriving DecidableEq

inductive Answer (τ ι : Type) where
  | done (o : Object τ ι) (value : Option ι)
  | wait
  | refused
deriving DecidableEq

namespace Object

variable {τ ι : Type}

def serve [DecidableEq τ] (who : τ) : Object τ ι → Request ι → Answer τ ι
  | .queue length items, .send v =>
    if items.length < length then .done (.queue length (items ++ [v])) none else .wait
  | .queue length items, .receive =>
    match items with
    | [] => .wait
    | v :: rest => .done (.queue length rest) (some v)
  | .mutex holder, .lock =>
    if holder = none then .done (.mutex (some who)) none else .wait
  | .mutex holder, .unlock =>
    if holder = none ∨ holder = some who then .done (.mutex none) none else .refused
  | .semaphore max count, .take =>
    if 0 < count then .done (.semaphore max (count - 1)) none else .wait
  | .semaphore max count, .give => .done (.semaphore max (min max (count + 1))) none
  | _, _ => .refused

/-- Room in the queue to send, an item to receive, a free mutex, a count to take. -/
def Ready : Object τ ι → Request ι → Prop
  | .queue length items, .send _ => items.length < length
  | .queue _ items, .receive => items ≠ []
  | .mutex holder, .lock => holder = none
  | .semaphore _ count, .take => 0 < count
  | _, _ => True

instance [DecidableEq τ] [DecidableEq ι] (o : Object τ ι) (r : Request ι) :
    Decidable (o.Ready r) := by
  unfold Ready
  split <;> infer_instance

def holder : Object τ ι → Option τ
  | .mutex holder => holder
  | _ => none

theorem serve_eq_wait_iff [DecidableEq τ] (who : τ) (o : Object τ ι) (r : Request ι) :
    o.serve who r = .wait ↔ ¬ o.Ready r := by
  have hite : ∀ (p : Prop) [Decidable p] (o' : Object τ ι) (v : Option ι),
      (if p then Answer.done o' v else .wait) = .wait ↔ ¬ p := by
    intro p _ o' v
    by_cases hp : p <;> simp [hp]
  cases o with
  | queue length items =>
    cases r with
    | send v => exact hite _ _ _
    | receive => cases items <;> simp [serve, Ready]
    | _ => simp [serve, Ready]
  | mutex holder =>
    cases r with
    | lock => exact hite _ _ _
    | unlock => by_cases h : holder = none ∨ holder = some who <;> simp [serve, Ready, h]
    | _ => simp [serve, Ready]
  | semaphore max count =>
    cases r with
    | take => exact hite _ _ _
    | _ => simp [serve, Ready]

/-! ## What is done on a mutex -/

section

variable [DecidableEq τ] {who holder : τ} {o o' : Object τ ι} {r : Request ι} {v : Option ι}

/-- On a mutex that is held it is the unlock of the holder. -/
theorem serve_held (h : (Object.mutex (some holder)).serve who r = .done o v) :
    who = holder ∧ o = .mutex none := by
  cases r with
  | unlock =>
    simp only [serve] at h
    split at h
    · next hwho =>
      cases h
      exact ⟨(Option.some.inj (hwho.resolve_left (by rintro ⟨⟩))).symm, rfl⟩
    · cases h
  | send | receive | lock | take | give => cases h

theorem lock_of_serve (h : o.serve who .lock = .done o' v) : o' = .mutex (some who) := by
  cases o with
  | mutex holder =>
    simp only [serve] at h
    split at h
    · cases h
      rfl
    · cases h
  | queue | semaphore => cases h

/-- Only a lock makes a holder, and it is the one who asks. -/
theorem eq_of_serve (h : o.serve who r = .done (.mutex (some holder)) v) : who = holder := by
  cases r with
  | lock => exact Option.some.inj (Object.mutex.inj (lock_of_serve h)).symm
  | unlock =>
    cases o with
    | mutex held =>
      simp only [serve] at h
      split at h <;> cases h
    | queue | semaphore => cases h
  | send | receive | take | give =>
    cases o <;> first | cases h | (simp only [serve] at h; split at h <;> cases h)

end

/-! ## What goes through a queue -/

end Object

/-- What a request puts into its object when it is done. -/
def Request.put {ι : Type} : Request ι → List ι
  | .send v => [v]
  | _ => []

namespace Object

variable {τ ι : Type}

/-- `put` has gone into the object so far, and `taken` out of it. -/
def Conserved (put taken : List ι) : Object τ ι → Prop
  | .queue _ items => put = taken ++ items
  | _ => put = [] ∧ taken = []

/-- A new object: a queue without items, or one that is no queue. -/
def Fresh : Object τ ι → Prop
  | .queue _ items => items = []
  | _ => True

theorem Fresh.conserved {o : Object τ ι} (h : o.Fresh) : o.Conserved [] [] := by
  cases o with
  | queue length items => exact (List.nil_append items).symm ▸ h.symm
  | mutex holder => exact ⟨rfl, rfl⟩
  | semaphore max count => exact ⟨rfl, rfl⟩

theorem Conserved.serve [DecidableEq τ] {o o' : Object τ ι} {put taken : List ι} {who : τ}
    {r : Request ι} {v : Option ι} (h : o.Conserved put taken) (hs : o.serve who r = .done o' v) :
    o'.Conserved (put ++ r.put) (taken ++ v.toList) := by
  cases o with
  | queue length items =>
    have h : put = taken ++ items := h
    cases r with
    | send w =>
      simp only [Object.serve] at hs
      split at hs
      · cases hs
        show put ++ [w] = taken ++ [] ++ (items ++ [w])
        rw [h, List.append_nil, List.append_assoc]
      · cases hs
    | receive =>
      cases items with
      | nil => cases hs
      | cons w rest =>
        cases hs
        show put ++ [] = taken ++ [w] ++ rest
        rw [h, List.append_nil, List.append_assoc]
        rfl
    | _ => cases hs
  | mutex holder =>
    obtain ⟨rfl, rfl⟩ := h
    cases r with
    | lock | unlock =>
      simp only [Object.serve] at hs
      split at hs
      · cases hs
        exact ⟨rfl, rfl⟩
      · cases hs
    | _ => cases hs
  | semaphore max count =>
    obtain ⟨rfl, rfl⟩ := h
    cases r with
    | take =>
      simp only [Object.serve] at hs
      split at hs
      · cases hs
        exact ⟨rfl, rfl⟩
      · cases hs
    | give =>
      cases hs
      exact ⟨rfl, rfl⟩
    | _ => cases hs

end Object

end Rtos
