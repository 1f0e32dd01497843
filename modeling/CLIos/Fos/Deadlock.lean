import CLIos.Fos.KernelObjects
import CLIos.Lib.WaitFor

/-!
# Locks that nobody gives

The locks of Lua code are the mutexes of components/FOS/fos_mutex.c and
`luaMutex`, which a worker has around the function of its task and `app_main`
around boot.lua.  All are waited for with `portMAX_DELAY`, so tasks that wait for
each other in a circle do so for ever: one that locks a mutex twice, two that lock
two mutexes in opposite orders, or a task whose function has returned without the
unlock, and the next one that locks the mutex under `luaMutex`.

Who waits under `luaMutex` keeps it, whatever it waits for, so that only Lua code which
runs without it (`_HandleLuaCommand` and the server threads) can wake a task.
-/

namespace CLIos

open Rtos Runs Locking Waits

inductive FosLock where
  | luaMutex
  | mutex (id : Nat)
deriving DecidableEq

/-- Whose step it is. -/
def FosEvent.caller : FosEvent → Caller
  | .call c _ => c
  | .wake c => c
  | .worker k => .worker k
  | .giveBoot => .main

namespace Fos

/-- The mutex in `mutex.lock`, or `luaMutex` at the take of `lua_task`. -/
def wants (s : Fos) (c : Caller) : Option FosLock :=
  match s.waiting c, c with
  | some (.forever id .lock), _ => some (.mutex id)
  | none, .worker k =>
    if s.tasks[k]?.any fun t => t.worker = .take then some .luaMutex else none
  | _, _ => none

def holder (s : Fos) : FosLock → Option Caller
  | .luaMutex => s.luaMutex
  | .mutex id => s.objects[id]?.bind Object.holder

def graph (s : Fos) : WaitGraph Caller FosLock := ⟨s.wants, s.holder⟩

def givesLuaMutex (s : Fos) : FosEvent → Option Caller
  | .worker k => if s.tasks[k]?.any fun t => t.worker = .give then some (.worker k) else none
  | .giveBoot => some .main
  | _ => none

def AtTake (s : Fos) (k : Nat) : Prop := ∃ t, s.tasks[k]? = some t ∧ t.worker = .take

variable {s s' : Fos} {c d : Caller} {id : Nat} {e : FosEvent}

theorem wants_mutex_iff : s.wants c = some (.mutex id) ↔ s.waiting c = some (.forever id .lock) := by
  unfold wants
  constructor
  · intro h
    split at h
    · next hw =>
      cases h
      exact hw
    · split at h <;> cases h
    · cases h
  · intro h
    rw [h]

theorem wants_luaMutex_iff :
    s.wants c = some .luaMutex ↔ s.waiting c = none ∧ ∃ k, c = .worker k ∧ s.AtTake k := by
  unfold wants
  constructor
  · intro h
    split at h
    · cases h
    · next k hw =>
      refine ⟨hw, k, rfl, ?_⟩
      cases ht : s.tasks[k]? with
      | none => simp [ht] at h
      | some t => exact ⟨t, ht, by simpa [ht] using h⟩
    · cases h
  · rintro ⟨hw, k, rfl, t, ht, hpc⟩
    simp [hw, ht, hpc]

theorem holder_mutex_iff :
    s.holder (.mutex id) = some c ↔ s.objects[id]? = some (.mutex (some c)) := by
  constructor
  · intro h
    obtain ⟨o, ho, hc⟩ := Option.bind_eq_some_iff.mp h
    cases o with
    | mutex h => exact ho.trans (congrArg (fun h => some (Object.mutex h)) hc)
    | queue | semaphore => cases hc
  · exact fun h => Option.bind_eq_some_iff.mpr ⟨_, h, rfl⟩

/-! ## The step of another task -/

/-- What a task waits for, it waits for until it goes on. -/
theorem waiting_frame (hs : s.step e = some s') (hc : e.caller ≠ c) :
    s'.waiting c = s.waiting c := by
  cases e with
  | call c' f =>
    obtain ⟨-, hs⟩ := Option.ite_none_right_eq_some.mp hs
    cases called hs with
    | done | create | task => rfl
    | wait | delay => exact if_neg (Ne.symm hc)
  | wake c' =>
    have hkept : ∀ w, (s.setWaiting c' w).waiting c = s.waiting c := fun w => if_neg (Ne.symm hc)
    have hs : s.onWake c' = some s' := hs
    unfold onWake at hs
    obtain ⟨-, hs⟩ := Option.ite_none_left_eq_some.mp hs
    split at hs
    · cases hs
    · cases hs
      exact hkept none
    · obtain ⟨o, -, hs⟩ := Option.bind_eq_some_iff.mp hs
      split at hs
      · cases hs
        exact hkept none
      · cases hs
      · cases hs
  | worker k =>
    obtain ⟨t, m, t', -, -, -, -, rfl⟩ := onWorker_eq_some hs
    rfl
  | giveBoot =>
    obtain ⟨-, hs⟩ := Option.ite_none_right_eq_some.mp hs
    cases hs
    rfl

theorem not_atTake_create {hasQueue spawned : Bool} {t : LuaTask}
    (h : LuaTask.create hasQueue spawned = some t) : t.worker ≠ .take := by
  unfold LuaTask.create at h
  split at h
  · cases h
    exact WorkerPc.noConfusion
  · split at h <;> cases h
    exact WorkerPc.noConfusion

/-- A task that is set to one at the same place. -/
theorem atTake_set {k j : Nat} {t t' : LuaTask} (ht : s.tasks[j]? = some t)
    (hpc : j = k → t'.worker = t.worker) :
    { s with tasks := s.tasks.set j t' }.AtTake k ↔ s.AtTake k := by
  constructor
  · rintro ⟨u, hu, htake⟩
    rcases getElem?_set_cases ht hu with ⟨rfl, rfl⟩ | ⟨-, hu⟩
    · exact ⟨t, ht, hpc rfl ▸ htake⟩
    · exact ⟨u, hu, htake⟩
  · rintro ⟨u, hu, htake⟩
    by_cases hjk : j = k
    · subst hjk
      obtain rfl : t = u := Option.some.inj (ht.symm.trans hu)
      exact ⟨t', List.getElem?_set_self (List.getElem?_eq_some_iff.mp ht).1, (hpc rfl).trans htake⟩
    · refine ⟨u, ?_, htake⟩
      show (s.tasks.set j t')[k]? = some u
      rw [List.getElem?_set_ne hjk]
      exact hu

theorem atTake_frame {k : Nat} (hs : s.step e = some s') (hc : e.caller ≠ .worker k) :
    s'.AtTake k ↔ s.AtTake k := by
  cases e with
  | call c' f =>
    obtain ⟨-, hs⟩ := Option.ite_none_right_eq_some.mp hs
    cases called hs with
    | done | wait | delay => exact Iff.rfl
    | create hasQueue spawned t ht =>
      constructor
      · rintro ⟨u, hu, htake⟩
        rcases getElem?_concat_cases hu with hu | ⟨-, rfl⟩
        · exact ⟨u, hu, htake⟩
        · exact absurd htake (not_atTake_create ht)
      · rintro ⟨u, hu, htake⟩
        refine ⟨u, ?_, htake⟩
        show (s.tasks ++ [t])[k]? = some u
        rw [List.getElem?_append_left (List.getElem?_eq_some_iff.mp hu).1]
        exact hu
    | task j o t t' ho ht ht' =>
      obtain ⟨u, hu, rfl⟩ := LuaTask.step_eq_some ht'
      exact atTake_set ht fun _ => (LuaTask.control_op hu ho).2.2.1
  | wake c' =>
    unfold AtTake
    rw [(onWake_spec hs).1]
  | worker j =>
    obtain ⟨t, m, t', ht, -, -, -, rfl⟩ := onWorker_eq_some hs
    exact atTake_set ht fun hjk => absurd (congrArg Caller.worker hjk) hc
  | giveBoot =>
    obtain ⟨-, hs⟩ := Option.ite_none_right_eq_some.mp hs
    cases hs
    exact Iff.rfl

theorem wants_frame (hs : s.step e = some s') (hc : e.caller ≠ c) : s'.wants c = s.wants c := by
  refine Option.ext fun r => ?_
  cases r with
  | mutex id => rw [wants_mutex_iff, wants_mutex_iff, waiting_frame hs hc]
  | luaMutex =>
    rw [wants_luaMutex_iff, wants_luaMutex_iff, waiting_frame hs hc]
    refine and_congr_right fun _ => exists_congr fun k => and_congr_right fun hk => ?_
    exact atTake_frame hs (hk ▸ hc)

theorem caller_of_served {q : Served} (h : s.served e = some q) : e.caller = q.caller := by
  rcases served_request h with ⟨f, rfl, -⟩ | ⟨rfl, -⟩ <;> rfl

theorem caller_of_gives (h : c ∈ s.givesLuaMutex e) : e.caller = c := by
  cases e with
  | call c' f | wake c' => cases h
  | worker k =>
    simp only [givesLuaMutex] at h
    split at h <;> cases h
    rfl
  | giveBoot => exact Option.some.inj h

theorem mutex_step (hs : s.step e = some s') (hr : s.holder (.mutex id) = some c) :
    s'.holder (.mutex id) = some c ∨ e.caller = c ∧ s'.holder (.mutex id) = none := by
  have hheld := holder_mutex_iff.mp hr
  have hlt := (List.getElem?_eq_some_iff.mp hheld).1
  cases moved hs with
  | kept hq hobj => exact Or.inl (holder_mutex_iff.mpr (hobj ▸ hheld))
  | made o hq ho hobj =>
    refine Or.inl (holder_mutex_iff.mpr ?_)
    rw [hobj, List.getElem?_append_left hlt]
    exact hheld
  | served q o o' hq ho hserve hobj =>
    by_cases hid : q.id = id
    · obtain rfl : o = .mutex (some c) := Option.some.inj ((hid ▸ ho).symm.trans hheld)
      obtain ⟨hwho, rfl⟩ := Object.serve_held hserve
      refine Or.inr ⟨(caller_of_served hq).trans hwho, ?_⟩
      show s'.objects[id]?.bind Object.holder = none
      rw [hobj, hid, List.getElem?_set_self hlt]
      rfl
    · refine Or.inl (holder_mutex_iff.mpr ?_)
      rw [hobj, List.getElem?_set_ne hid]
      exact hheld

theorem luaMutex_step (hs : s.step e = some s') (hown : s.luaMutex = some c) :
    s'.luaMutex = some c ∨ c ∈ s.givesLuaMutex e ∧ s'.luaMutex = none := by
  cases e with
  | call c' f =>
    obtain ⟨-, hs⟩ := Option.ite_none_right_eq_some.mp hs
    cases called hs with
    | done | wait | delay | create | task => exact Or.inl hown
  | wake c' => exact Or.inl ((onWake_spec hs).2.1.trans hown)
  | worker k =>
    obtain ⟨t, m, t', ht, -, hm, -, rfl⟩ := onWorker_eq_some hs
    cases hpc : t.worker with
    | take =>
      rw [hpc] at hm
      cases (Option.ite_none_right_eq_some.mp hm).1.symm.trans hown
    | give =>
      rw [hpc] at hm
      obtain ⟨hk, hm⟩ := Option.ite_none_right_eq_some.mp hm
      obtain rfl : Caller.worker k = c := Option.some.inj (hk.symm.trans hown)
      exact Or.inr ⟨by simp [givesLuaMutex, ht, hpc], (Option.some.inj hm).symm⟩
    | absent | started | receive | interval | testStop | rawgeti | pcall | delayUntil | unref |
        queueDelete | freeParam | taskDelete | deleted =>
      rw [hpc] at hm
      exact Or.inl ((Option.some.inj hm).symm.trans hown)
  | giveBoot =>
    obtain ⟨⟨hmain, -⟩, hs⟩ := Option.ite_none_right_eq_some.mp hs
    cases hs
    exact Or.inr ⟨hmain.symm.trans hown, rfl⟩

/-- A lock stays with its holder until the holder gives it, and then it is free. -/
theorem holder_step {r : FosLock} (hs : s.step e = some s') (hr : s.holder r = some c) :
    s'.holder r = some c ∨ e.caller = c ∧ s'.holder r = none := by
  cases r with
  | mutex id => exact mutex_step hs hr
  | luaMutex =>
    rcases luaMutex_step hs hr with hown | ⟨hgives, hnone⟩
    · exact Or.inl hown
    · exact Or.inr ⟨caller_of_gives hgives, hnone⟩

/-- Nobody takes a lock from its holder. -/
theorem holder_frame {r : FosLock} (hs : s.step e = some s') (hc : e.caller ≠ c)
    (hr : s.holder r = some c) : s'.holder r = some c :=
  (holder_step hs hr).resolve_right fun h => hc h.1

/-! ## Waiting in a circle -/

theorem not_running_of_wants {r : FosLock} (hr : s.wants c = some r) : s.running c = false := by
  by_contra hrun
  have hrun : s.running c = true := Bool.not_eq_false _ ▸ hrun
  have hnone := waiting_of_running hrun
  cases r with
  | mutex id => cases hnone.symm.trans (wants_mutex_iff.mp hr)
  | luaMutex =>
    obtain ⟨-, k, rfl, t, ht, htake⟩ := wants_luaMutex_iff.mp hr
    obtain ⟨u, hu, hpcall⟩ := running_worker hrun
    obtain rfl : t = u := Option.some.inj (ht.symm.trans hu)
    cases htake.symm.trans hpcall

/-- A task that waits for a holder takes no step. -/
theorem caller_ne_of_waitsFor (hc : s.graph.WaitsFor c d) (hs : s.step e = some s') :
    e.caller ≠ c := by
  obtain ⟨r, hr, hd⟩ := hc
  have hr : s.wants c = some r := hr
  intro hcaller
  cases e with
  | call c' f =>
    obtain rfl : c' = c := hcaller
    obtain ⟨hrun, -⟩ := Option.ite_none_right_eq_some.mp hs
    cases hrun.symm.trans (not_running_of_wants hr)
  | wake c' =>
    obtain rfl : c' = c := hcaller
    have hs : s.onWake c' = some s' := hs
    unfold onWake at hs
    obtain ⟨-, hs⟩ := Option.ite_none_left_eq_some.mp hs
    cases r with
    | mutex id =>
      have ho : s.objects[id]? = some (.mutex (some d)) := holder_mutex_iff.mp hd
      rw [wants_mutex_iff.mp hr] at hs
      simp only [ho, Option.bind_some] at hs
      cases hs
    | luaMutex =>
      rw [(wants_luaMutex_iff.mp hr).1] at hs
      cases hs
  | worker k =>
    obtain rfl : Caller.worker k = c := hcaller
    obtain ⟨t, m, t', ht, hnone, hm, -, -⟩ := onWorker_eq_some hs
    cases r with
    | mutex id => cases hnone.symm.trans (wants_mutex_iff.mp hr)
    | luaMutex =>
      obtain ⟨-, j, hj, u, hu, htake⟩ := wants_luaMutex_iff.mp hr
      cases hj
      obtain rfl : t = u := Option.some.inj (ht.symm.trans hu)
      rw [htake] at hm
      obtain ⟨hfree, -⟩ := Option.ite_none_right_eq_some.mp hm
      cases hfree.symm.trans hd
  | giveBoot =>
    obtain rfl : Caller.main = c := hcaller
    obtain ⟨⟨-, hnone⟩, -⟩ := Option.ite_none_right_eq_some.mp hs
    cases r with
    | mutex id => cases hnone.symm.trans (wants_mutex_iff.mp hr)
    | luaMutex =>
      obtain ⟨-, k, hk, -⟩ := wants_luaMutex_iff.mp hr
      cases hk

/-- The tasks of `C` want and hold in `t` what they want and hold in `s`, and wait for each other. -/
structure Deadlocked (s : Fos) (C : Set Caller) (t : Fos) : Prop where
  knot : t.graph.Knot C
  wants : ∀ c ∈ C, t.wants c = s.wants c
  holds : ∀ c ∈ C, ∀ r, s.holder r = some c → t.holder r = some c

theorem deadlocked_self {C : Set Caller} (h : s.graph.Knot C) : Deadlocked s C s :=
  ⟨h, fun _ _ => rfl, fun _ _ _ hr => hr⟩

variable {C : Set Caller} {t t' : Fos}

theorem Deadlocked.caller_notMem (h : Deadlocked s C t) (hs : t.step e = some t') :
    e.caller ∉ C := by
  intro hc
  obtain ⟨d, -, hd⟩ := h.knot.waits e.caller hc
  exact caller_ne_of_waitsFor hd hs rfl

theorem Deadlocked.step (h : Deadlocked s C t) (hs : t.step e = some t') : Deadlocked s C t' := by
  have hother : ∀ c ∈ C, e.caller ≠ c := by
    rintro c hc rfl
    exact h.caller_notMem hs hc
  have hwants : ∀ c ∈ C, t'.wants c = t.wants c := fun c hc => wants_frame hs (hother c hc)
  have hholds : ∀ c ∈ C, ∀ r, t.holder r = some c → t'.holder r = some c :=
    fun c hc r hr => holder_frame hs (hother c hc) hr
  exact ⟨h.knot.stays hwants hholds, fun c hc => (hwants c hc).trans (h.wants c hc),
    fun c hc r hr => hholds c hc r (h.holds c hc r hr)⟩

end Fos

/-- **Deadlock is for ever.**  Tasks that wait for each other in a circle take no step
in any continuation, whatever the other tasks do, and keep what they hold. -/
theorem deadlock_for_ever (s : Fos) (C : Set Caller) (h : s.graph.Knot C) (es : List FosEvent) :
    (fos.restart s).Always (Fos.Deadlocked s C) es ∧
      (fos.restart s).Along (fun _ e => e.caller ∉ C) es := by
  have hall : (fos.restart s).Always (Fos.Deadlocked s C) es :=
    Machine.always_of_step (Fos.deadlocked_self h) (fun _ _ _ h hs => h.step hs) es
  refine ⟨hall, fun l e t t' hl ht hs => ?_⟩
  exact (hall l t ((List.prefix_append l [e]).trans hl) ht).caller_notMem hs

/-- Two tasks and one mutex.  The first locks it and its function returns; the second
locks it too, and waits for the first, which comes to its take. -/
def oneMutex : List FosEvent :=
  [.call .main (.mutexCreate true), .call .main (.taskCreate true true),
    .call .main (.taskCreate true true), .call .main (.task 0 .start),
    .call .main (.task 1 .start), .giveBoot] ++
  List.replicate 6 (.worker 0) ++ [.call (.worker 0) (.mutexLock 0)] ++
  List.replicate 4 (.worker 0) ++ List.replicate 6 (.worker 1) ++
  [.call (.worker 1) (.mutexLock 0)]

theorem deadlock_for_ever_oneMutex : ∃ s, fos.run oneMutex = some s ∧ ∀ es,
    (fos.restart s).Always (Fos.Deadlocked s {.worker 0, .worker 1}) es ∧
      (fos.restart s).Along (fun _ e => e.caller ∉ ({.worker 0, .worker 1} : Set Caller)) es := by
  have hrun : ∃ s, fos.run oneMutex = some s ∧ s.wants (.worker 0) = some .luaMutex ∧
      s.holder .luaMutex = some (.worker 1) ∧ s.wants (.worker 1) = some (.mutex 0) ∧
      s.holder (.mutex 0) = some (.worker 0) := ⟨_, rfl, rfl, rfl, rfl, rfl⟩
  obtain ⟨s, hs, hwants, hholder, hwants', hholder'⟩ := hrun
  refine ⟨s, hs, deadlock_for_ever s _ ⟨⟨.worker 0, Or.inl rfl⟩, ?_⟩⟩
  rintro c (rfl | rfl)
  · exact ⟨.worker 1, Or.inr rfl, .luaMutex, hwants, hholder⟩
  · exact ⟨.worker 0, Or.inl rfl, .mutex 0, hwants', hholder'⟩

/-! ## Waiting under `luaMutex` -/

namespace Fos

variable {s s' : Fos} {c : Caller} {id : Nat} {e : FosEvent} {r : Request Int}

/-- Boot.lua and a worker's function own `luaMutex` while they run. -/
theorem Placed.owns_of_running (h : Placed s) (hr : s.running c = true)
    (hc : ∀ n, c ≠ .other n) : s.luaMutex = some c := by
  cases c with
  | worker k => exact h.owns hr
  | main => exact of_decide_eq_true (Bool.and_eq_true_iff.mp hr).2
  | other n => exact absurd rfl (hc n)

/-- A worker and `app_main` run Lua code, and wait in it, under `luaMutex`. -/
structure Owning (s : Fos) : Prop where
  placed : Placed s
  main : s.waiting .main ≠ none → s.luaMutex = some .main

theorem owning_boot : Owning boot := ⟨placed_boot, fun _ => rfl⟩

theorem Owning.owns_of_waiting (h : Owning s) (hw : s.waiting c ≠ none)
    (hc : ∀ n, c ≠ .other n) : s.luaMutex = some c := by
  cases c with
  | worker k =>
    obtain ⟨t, ht, hpc⟩ := h.placed.waiting k hw
    exact (h.placed.owner k t ht).mp (by rw [hpc]; rfl)
  | main => exact h.main hw
  | other n => exact absurd rfl (hc n)

theorem waiting_wake (hs : s.onWake c = some s') : s'.waiting c = none := by
  have hnone : (s.setWaiting c none).waiting c = none := if_pos rfl
  unfold onWake at hs
  obtain ⟨-, hs⟩ := Option.ite_none_left_eq_some.mp hs
  split at hs
  · cases hs
  · cases hs
    exact hnone
  · obtain ⟨o, -, hs⟩ := Option.bind_eq_some_iff.mp hs
    split at hs
    · cases hs
      exact hnone
    · cases hs
    · cases hs

/-- `app_main` waits under `luaMutex` only. -/
theorem Owning.main_step (h : s.Owning) (hs : s.step e = some s') (hw : s'.waiting .main ≠ none) :
    s'.luaMutex = some .main := by
  have hown : s.luaMutex = some .main := by
    by_cases hc : e.caller = .main
    · cases e with
      | call c' f =>
        obtain rfl : c' = .main := hc
        obtain ⟨hrun, -⟩ := Option.ite_none_right_eq_some.mp hs
        exact h.placed.owns_of_running hrun (by rintro n ⟨⟩)
      | wake c' =>
        obtain rfl : c' = .main := hc
        exact absurd (waiting_wake hs) hw
      | worker k => cases hc
      | giveBoot => exact (Option.ite_none_right_eq_some.mp hs).1.1
    · exact h.main (waiting_frame hs hc ▸ hw)
  rcases luaMutex_step hs hown with hown | ⟨hgives, -⟩
  · exact hown
  · cases e with
    | giveBoot =>
      obtain ⟨⟨-, hnone⟩, hs⟩ := Option.ite_none_right_eq_some.mp hs
      cases hs
      exact absurd hnone hw
    | worker k => cases caller_of_gives hgives
    | call c' f | wake c' => cases hgives

theorem Owning.step (h : Owning s) (hs : s.step e = some s') : Owning s' :=
  ⟨h.placed.step hs, h.main_step hs⟩

/-- `c` has `luaMutex`, and waits for what is not there. -/
structure Parked (s : Fos) (c : Caller) (id : Nat) (r : Request Int) : Prop where
  owning : Owning s
  owner : s.luaMutex = some c
  waiting : s.waiting c = some (.forever id r)
  notReady : ∃ o, s.objects[id]? = some o ∧ ¬ o.Ready r

theorem parked_of_call {f : FosCall} (h : Owning s) (hc : ∀ n, c ≠ .other n)
    (hs : s.step (.call c f) = some s') (hw : s'.waiting c = some (.forever id r)) :
    s'.Parked c id r := by
  obtain ⟨hrun, hcall⟩ := Option.ite_none_right_eq_some.mp hs
  have hown := h.placed.owns_of_running hrun hc
  cases called hcall with
  | done | create | task => cases (waiting_of_running hrun).symm.trans hw
  | delay => cases (if_pos rfl : _ = some Waiting.delay).symm.trans hw
  | wait f id' r' o hf ho hwait =>
    cases (if_pos rfl : _ = some (Waiting.forever id' r')).symm.trans hw
    exact ⟨h.step hs, hown, hw, o, ho, hwait⟩

/-- All that is left to the others is to come to their take. -/
theorem Parked.worker (h : s.Parked c id r) (hs : s.step e = some s')
    (he : ∀ n, e.caller ≠ .other n) : ∃ k, e = .worker k ∧ .worker k ≠ c := by
  have heq : ∀ c', s.luaMutex = some c' → c' = c := fun c' hown =>
    Option.some.inj (hown.symm.trans h.owner)
  cases e with
  | call c' f =>
    obtain ⟨hrun, -⟩ := Option.ite_none_right_eq_some.mp hs
    obtain rfl := heq c' (h.owning.placed.owns_of_running hrun he)
    cases (waiting_of_running hrun).symm.trans h.waiting
  | wake c' =>
    have hs : s.onWake c' = some s' := hs
    unfold onWake at hs
    obtain ⟨-, hs⟩ := Option.ite_none_left_eq_some.mp hs
    have hw : s.waiting c' ≠ none := by
      intro hnone
      rw [hnone] at hs
      cases hs
    obtain rfl := heq c' (h.owning.owns_of_waiting hw he)
    obtain ⟨o, ho, hready⟩ := h.notReady
    rw [h.waiting] at hs
    simp only [ho, Option.bind_some, (o.serve_eq_wait_iff c' r).mpr hready] at hs
    cases hs
  | worker k =>
    obtain ⟨t, m, t', -, hnone, -, -, -⟩ := onWorker_eq_some hs
    refine ⟨k, rfl, ?_⟩
    rintro rfl
    cases hnone.symm.trans h.waiting
  | giveBoot =>
    obtain ⟨⟨hmain, hnone⟩, -⟩ := Option.ite_none_right_eq_some.mp hs
    obtain rfl := heq .main hmain
    cases hnone.symm.trans h.waiting

theorem Parked.step (h : s.Parked c id r) (hs : s.step e = some s')
    (he : ∀ n, e.caller ≠ .other n) : s'.Parked c id r := by
  obtain ⟨k, rfl, hne⟩ := h.worker hs he
  refine ⟨h.owning.step hs, holder_frame (r := .luaMutex) hs hne h.owner,
    (waiting_frame hs hne).trans h.waiting, ?_⟩
  obtain ⟨t, m, t', -, -, -, -, rfl⟩ := onWorker_eq_some hs
  exact h.notReady

end Fos

/-- **Tasks cannot wake each other.**  If boot.lua or the function of a task has to wait
in a call, then as long as no other Lua code than these runs it waits, and no other
function is called. -/
theorem wait_under_luaMutex_for_ever (pre es : List FosEvent) (s s' : Fos) (c : Caller)
    (f : FosCall) (id : Nat) (r : Request Int) (hs : fos.run pre = some s)
    (hc : ∀ n, c ≠ .other n) (hcall : s.step (.call c f) = some s')
    (hwait : s'.waiting c = some (.forever id r)) (hes : ∀ e ∈ es, ∀ n, e.caller ≠ .other n) :
    (fos.restart s').Always (fun t => t.waiting c = some (.forever id r) ∧
      ∀ (k : Nat) (u : LuaTask), t.tasks[k]? = some u → u.worker = .pcall → c = .worker k) es := by
  have hall : fos.Always Fos.Owning pre :=
    Machine.always_of_step Fos.owning_boot (fun _ _ _ h hs => h.step hs) pre
  have hparked := Fos.parked_of_call (hall pre s List.prefix_rfl hs) hc hcall hwait
  have halong : (fos.restart s').Along (fun _ e => ∀ n, e.caller ≠ .other n) es :=
    fun l e _ _ hl _ _ => hes e (hl.subset (List.mem_append_right l List.mem_cons_self))
  have hinv : (fos.restart s').Always (fun t => t.Parked c id r) es :=
    Machine.always_of_along hparked (fun _ _ _ h he hs => h.step hs he) es halong
  refine Machine.always_mono (fun t h => ⟨h.waiting, fun k u hu hpc => ?_⟩) hinv
  have hk := (h.owning.placed.owner k u hu).mp (by rw [hpc]; rfl)
  exact Option.some.inj (h.owner.symm.trans hk)

/-- One task takes from a semaphore, and the one that is to give comes to its take. -/
theorem wait_under_luaMutex_for_ever_two :
    ∃ s', ((fos.restart s').run (List.replicate 4 (.worker 1))).isSome = true ∧
      (fos.restart s').Always (fun t => t.waiting (.worker 0) = some (.forever 0 .take) ∧
        ∀ (k : Nat) (u : LuaTask), t.tasks[k]? = some u → u.worker = .pcall →
          Caller.worker 0 = .worker k) (List.replicate 4 (.worker 1)) :=
  ⟨_, rfl, wait_under_luaMutex_for_ever
    ([.call .main (.semCreate 1 true), .call .main (.taskCreate true true),
      .call .main (.taskCreate true true), .call .main (.task 0 .start),
      .call .main (.task 1 .start), .giveBoot] ++ List.replicate 6 (.worker 0))
    _ _ _ (.worker 0) (.semTake 0) 0 .take rfl (by rintro n ⟨⟩) rfl rfl
    (by rintro e he n; rw [List.eq_of_mem_replicate he]; rintro ⟨⟩)⟩

/-! ## A task that locks a mutex twice -/

namespace Fos

variable {s s' t : Fos} {c : Caller} {id : Nat}

/-- `c` holds the mutex for which it waits. -/
structure SelfLocked (s : Fos) (c : Caller) (id : Nat) : Prop where
  waiting : s.waiting c = some (.forever id .lock)
  held : s.objects[id]? = some (.mutex (some c))

/-- A call for the mutex that the caller holds. -/
theorem selfLocked_of_lock (hheld : s.objects[id]? = some (.mutex (some c)))
    (hs : s.step (.call c (.mutexLock id)) = some s') :
    s'.SelfLocked c id ∧ s' = s.setWaiting c (some (.forever id .lock)) := by
  obtain ⟨-, hs⟩ := Option.ite_none_right_eq_some.mp hs
  have hs : s.serve c id .lock = some s' := hs
  unfold serve at hs
  rw [hheld, Option.bind_some] at hs
  obtain rfl := Option.some.inj hs
  exact ⟨⟨if_pos rfl, hheld⟩, rfl⟩

/-- It waits for itself. -/
theorem SelfLocked.knot (h : s.SelfLocked c id) : s.graph.Knot {c} where
  nonempty := ⟨c, rfl⟩
  waits := by
    rintro d rfl
    exact ⟨d, rfl, .mutex id, wants_mutex_iff.mpr h.waiting, holder_mutex_iff.mpr h.held⟩

theorem Deadlocked.selfLocked (hself : s.SelfLocked c id) (h : Deadlocked s {c} t) :
    t.SelfLocked c id where
  waiting := wants_mutex_iff.mp ((h.wants c rfl).trans (wants_mutex_iff.mpr hself.waiting))
  held := holder_mutex_iff.mp (h.holds c rfl _ (holder_mutex_iff.mpr hself.held))

end Fos

/-- **Locked twice.**  Lua code that locks a mutex it has locked already waits for
ever, whatever else runs, and nobody gets the mutex.  If it runs under `luaMutex`, as
boot.lua and the function of a task do, it keeps that too, and the function of no
other task is called again. -/
theorem lock_twice_for_ever (pre es : List FosEvent) (s s' : Fos) (c : Caller) (id : Nat)
    (hs : fos.run pre = some s) (hheld : s.objects[id]? = some (.mutex (some c)))
    (hlock : s.step (.call c (.mutexLock id)) = some s') :
    (fos.restart s').Always (fun t => t.SelfLocked c id ∧ ((∀ n, c ≠ .other n) →
      ∀ (k : Nat) (u : LuaTask), t.tasks[k]? = some u → u.worker = .pcall → c = .worker k)) es := by
  have hall : fos.Always Fos.Placed pre :=
    Machine.always_of_step Fos.placed_boot (fun _ _ _ h hs => h.step hs) pre
  have hplaced := hall pre s List.prefix_rfl hs
  have hrunning := (Option.ite_none_right_eq_some.mp hlock).1
  obtain ⟨hself, hs'⟩ := Fos.selfLocked_of_lock hheld hlock
  have hinv : (fos.restart s').Always (fun t => t.Placed ∧ Fos.Deadlocked s' {c} t) es := by
    refine Machine.always_of_step ⟨hplaced.step hlock, Fos.deadlocked_self hself.knot⟩ ?_ es
    rintro t e t' ⟨hplaced, hdead⟩ ht
    exact ⟨hplaced.step ht, hdead.step ht⟩
  refine Machine.always_mono (fun t h => ⟨h.2.selfLocked hself, fun hc k u hu hpc => ?_⟩) hinv
  have hown : s'.luaMutex = some c := hs' ▸ hplaced.owns_of_running hrunning hc
  have hk := (h.1.owner k u hu).mp (by rw [hpc]; rfl)
  exact Option.some.inj ((h.2.holds c rfl .luaMutex hown).symm.trans hk)

/-- `boot.lua` locks a mutex twice.  A task that is started then comes to its take. -/
theorem lock_twice_boot :
    let es := [.call (.other 0) (.taskCreate true true), .call (.other 0) (.task 0 .start)] ++
      List.replicate 4 (.worker 0) ++ [.call (.other 0) (.mutexLock 0)]
    ∃ s', ((fos.restart s').run es).isSome = true ∧
      (fos.restart s').Always (fun t => t.SelfLocked .main 0 ∧ ((∀ n, Caller.main ≠ .other n) →
        ∀ (k : Nat) (u : LuaTask), t.tasks[k]? = some u → u.worker = .pcall →
          Caller.main = .worker k)) es :=
  ⟨_, rfl, lock_twice_for_ever [.call .main (.mutexCreate true), .call .main (.mutexLock 0)]
    _ _ _ .main 0 rfl rfl rfl⟩

end CLIos
