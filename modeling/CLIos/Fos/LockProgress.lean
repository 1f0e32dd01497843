import CLIos.Fos.LockOrder
import CLIos.Lib.Fair

/-!
# Locks that are given are got

What becomes of a task that waits for a lock, in executions that do not end.  Two
things are needed beside the order of Fos/LockOrder.  The kernel must not pass over a
task for ever while the lock that it wants is free again and again (nor is the task
left suspended).  And Lua code must not just keep a lock: who holds one for ever waits
for ever for another.  Then every task that waits for a lock gets it, by the rule of
Lib/WaitFor.
-/

namespace CLIos

open Rtos Runs Locking Waits

theorem FosLock.rank_le {rank : Nat → Nat} {N : Nat} (hN : ∀ id, rank id ≤ N) (r : FosLock) :
    r.rank rank ≤ N + 1 := by
  cases r with
  | luaMutex => exact Nat.zero_le _
  | mutex id => exact Nat.succ_le_succ (hN id)

namespace Fos

variable {s s' : Fos} {c : Caller} {e : FosEvent} {r : FosLock} {rank : Nat → Nat}

/-- The lock that `c` wants is free. -/
def CanTake (s : Fos) (c : Caller) : Prop := ∃ r, s.wants c = some r ∧ s.holder r = none

/-- The next step of a task that wants a lock takes it. -/
theorem holder_of_wants (hs : s.step e = some s') (hw : s.wants e.caller = some r) :
    s'.holder r = some e.caller := by
  cases e with
  | call c f =>
    obtain ⟨hrun, -⟩ := Option.ite_none_right_eq_some.mp hs
    cases hrun.symm.trans (not_running_of_wants hw)
  | wake c =>
    have hs : s.onWake c = some s' := hs
    unfold onWake at hs
    obtain ⟨-, hs⟩ := Option.ite_none_left_eq_some.mp hs
    cases r with
    | mutex id =>
      have hwait : s.waiting c = some (.forever id .lock) := wants_mutex_iff.mp hw
      rw [hwait] at hs
      obtain ⟨o, ho, hs⟩ := Option.bind_eq_some_iff.mp hs
      split at hs
      · next o' v hserve =>
        obtain rfl := Object.lock_of_serve hserve
        cases hs
        refine holder_mutex_iff.mpr ?_
        exact List.getElem?_set_self (List.getElem?_eq_some_iff.mp ho).1
      · cases hs
      · cases hs
    | luaMutex =>
      have hwait : s.waiting c = none := (wants_luaMutex_iff.mp hw).1
      rw [hwait] at hs
      cases hs
  | worker k =>
    obtain ⟨t, m, t', ht, hnone, hm, -, rfl⟩ := onWorker_eq_some hs
    cases r with
    | mutex id => cases hnone.symm.trans (wants_mutex_iff.mp hw)
    | luaMutex =>
      obtain ⟨-, j, hj, u, hu, htake⟩ := wants_luaMutex_iff.mp hw
      cases hj
      obtain rfl : t = u := Option.some.inj (ht.symm.trans hu)
      rw [htake] at hm
      exact (Option.some.inj (Option.ite_none_right_eq_some.mp hm).2).symm
  | giveBoot =>
    obtain ⟨⟨-, hnone⟩, -⟩ := Option.ite_none_right_eq_some.mp hs
    cases r with
    | mutex id => cases hnone.symm.trans (wants_mutex_iff.mp hw)
    | luaMutex =>
      obtain ⟨-, k, hk, -⟩ := wants_luaMutex_iff.mp hw
      cases hk

/-! ## In an execution -/

/-- Who holds a lock for ever waits for ever for another one. -/
def Gives (E : Execution fos) : Prop :=
  ∀ n c r, (∀ m, n ≤ m → (E.state m).holder r = some c) →
    ∃ m r', n ≤ m ∧ ∀ l, m ≤ l → (E.state l).wants c = some r'

variable {E : Execution fos}

theorem tidy_state (hord : E.Along (InOrder rank)) (n : Nat) : (E.state n).Tidy rank := by
  have hstart : (E.state 0).Tidy rank := by
    rw [E.start]
    exact tidy_boot rank
  exact Execution.always_from hord (fun _ _ _ h hord hs => h.step hord hs) hstart n (Nat.zero_le n)

theorem passing (hord : E.Along (InOrder rank))
    (hfair : E.StrongFair (fun e => some e.caller) CanTake) (hgives : Gives E) :
    Passing fun n => (E.state n).graph where
  passes := by
    intro n r c hr
    show (E.state (n + 1)).holder r = some c ∨ (E.state (n + 1)).holder r = none
    cases hl : E.label n with
    | none =>
      rw [E.idle n hl]
      exact Or.inl hr
    | some e => exact (holder_step (E.next n e hl) hr).imp_right And.right
  grants := by
    intro n c r hwants
    by_contra hnot
    have hturn : ∀ m, n ≤ m → ∃ l, m ≤ l ∧ (E.state l).CanTake c := by
      intro m hm
      by_contra hnone
      refine hnot ⟨m, hm, fun l hl hfree => hnone ⟨l, hl, r, hwants l (hm.trans hl), hfree⟩⟩
    obtain ⟨m, e, hm, hl, hcaller⟩ := hfair c n hturn
    obtain rfl : e.caller = c := Option.some.inj hcaller
    -- it has taken the lock, and still wants it
    have hheld := holder_of_wants (E.next m e hl) (hwants m hm)
    have hlt := (tidy_state hord (m + 1)).graph_ordered e.caller r r
      (hwants (m + 1) (Nat.le_succ_of_le hm)) hheld
    exact Nat.lt_irrefl _ hlt
  gives := hgives

/-- Who wants a lock and does not get it goes on wanting it. -/
theorem wants_of_not_held {n : Nat} (hw : (E.state n).wants c = some r)
    (hnot : ∀ m, n ≤ m → (E.state m).holder r ≠ some c) :
    ∀ m, n ≤ m → (E.state m).wants c = some r := by
  intro m hm
  induction m, hm using Nat.le_induction with
  | base => exact hw
  | succ m hm ih =>
    cases hl : E.label m with
    | none =>
      rw [E.idle m hl]
      exact ih
    | some e =>
      have hs := E.next m e hl
      by_cases hc : e.caller = c
      · subst hc
        exact absurd (holder_of_wants hs ih) (hnot (m + 1) (Nat.le_succ_of_le hm))
      · exact (wants_frame hs hc).trans ih

end Fos

/-- **Who waits for a lock gets it.**  In every execution with locks in an order, a
kernel that passes over nobody and Lua code that keeps no lock, every task that waits
for a mutex or for `luaMutex` has it at some later moment. -/
theorem ordered_locks_granted (rank : Nat → Nat) (N : Nat) (hN : ∀ id, rank id ≤ N)
    (E : Execution fos) (hord : E.Along (Fos.InOrder rank))
    (hfair : E.StrongFair (fun e => some e.caller) Fos.CanTake) (hgives : Fos.Gives E)
    (n : Nat) (c : Caller) (r : FosLock) (hw : (E.state n).wants c = some r) :
    ∃ m, n ≤ m ∧ (E.state m).holder r = some c := by
  by_contra hnot
  have hwants := Fos.wants_of_not_held hw fun m hm hheld => hnot ⟨m, hm, hheld⟩
  exact (Fos.passing hord hfair hgives).not_for_ever
    (fun n => (Fos.tidy_state hord n).graph_ordered) (FosLock.rank_le hN) n c r hwants

/-! ## An execution -/

namespace Fos

variable {s : Fos} {c : Caller}

theorem waiting_of_absent (es : List FosEvent) (s : Fos) (h : fos.run es = some s) :
    (∀ e ∈ es, e.caller ≠ c) → s.waiting c = none := by
  induction es, s, h using Machine.run_induction with
  | init => exact fun _ => rfl
  | step es s e s' h hs ih =>
    intro hc
    rw [waiting_frame hs (hc e (List.mem_append_right es List.mem_cons_self))]
    exact ih fun e' he' => hc e' (List.mem_append_left _ he')

/-- Who took part waits for nothing, no worker is at its take, and all locks are free. -/
def AllGiven (es : List FosEvent) (s : Fos) : Prop :=
  (∀ e ∈ es, s.waiting e.caller = none) ∧ (∀ t ∈ s.tasks, t.worker ≠ .take) ∧
    s.luaMutex = none ∧ ∀ o ∈ s.objects, o.holder = none

instance (es : List FosEvent) (s : Fos) : Decidable (s.AllGiven es) :=
  inferInstanceAs (Decidable (_ ∧ _ ∧ _ ∧ _))

theorem AllGiven.wants_none {es : List FosEvent} (h : s.AllGiven es) (hs : fos.run es = some s)
    (c : Caller) : s.wants c = none := by
  have hwait : s.waiting c = none := by
    by_cases hc : ∃ e ∈ es, e.caller = c
    · obtain ⟨e, he, rfl⟩ := hc
      exact h.1 e he
    · exact waiting_of_absent es s hs fun e he hec => hc ⟨e, he, hec⟩
  refine Option.eq_none_iff_forall_ne_some.mpr fun r hr => ?_
  cases r with
  | mutex id => cases hwait.symm.trans (wants_mutex_iff.mp hr)
  | luaMutex =>
    obtain ⟨-, k, -, t, ht, htake⟩ := wants_luaMutex_iff.mp hr
    exact h.2.1 t (List.mem_of_getElem? ht) htake

theorem AllGiven.holder_none {es : List FosEvent} (h : s.AllGiven es) (r : FosLock) :
    s.holder r = none := by
  cases r with
  | luaMutex => exact h.2.2.1
  | mutex id =>
    refine Option.bind_eq_none_iff.mpr fun o ho => ?_
    exact h.2.2.2 o (List.mem_of_getElem? ho)

/-- The run of `es`, and nothing from then on. -/
theorem execution_of_given (rank : Nat → Nat) (es : List FosEvent)
    (h : (fos.run es).any (fun s => decide (s.AllGiven es)) = true)
    (hord : fos.Along (InOrder rank) es) : ∃ E : Execution fos, (∀ n, E.label n = es[n]?) ∧
      E.Along (InOrder rank) ∧ E.StrongFair (fun e => some e.caller) CanTake ∧ Gives E := by
  obtain ⟨s, hs, hgiven⟩ := (Option.any_eq_true _ _).mp h
  have hgiven : s.AllGiven es := of_decide_eq_true hgiven
  refine ⟨Execution.ofRun es s hs, fun _ => rfl, Execution.ofRun_along hs hord,
    Execution.ofRun_strongFair hs ?_, ?_⟩
  · rintro c ⟨r, hr, -⟩
    cases (hgiven.wants_none hs c).symm.trans hr
  · intro n c r hheld
    have hlast := hheld (max n es.length) (Nat.le_max_left n es.length)
    rw [Execution.ofRun_state_of_le hs (Nat.le_max_right n es.length)] at hlast
    cases (hgiven.holder_none r).symm.trans hlast

end Fos

/-- The server thread unlocks its mutexes. -/
def twoMutexesGiven : List FosEvent :=
  twoMutexes ++ [.call (.other 0) (.mutexUnlock 1), .call (.other 0) (.mutexUnlock 0)]

theorem ordered_locks_granted_two : ∃ E : Execution fos, (∀ n, E.label n = twoMutexesGiven[n]?) ∧
    ∀ n c r, (E.state n).wants c = some r → ∃ m, n ≤ m ∧ (E.state m).holder r = some c := by
  obtain ⟨E, hlabel, hord, hfair, hgives⟩ := Fos.execution_of_given (fun id => min id 1)
    twoMutexesGiven (by decide +kernel) (Machine.along_of_check _ _ (by decide +kernel))
  exact ⟨E, hlabel, ordered_locks_granted _ 1 (fun id => Nat.min_le_right id 1) E hord hfair hgives⟩

end CLIos
