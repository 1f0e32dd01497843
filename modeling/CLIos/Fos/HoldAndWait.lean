import CLIos.Fos.Blocking

/-!
# Hold and wait

A worker owns `luaMutex` from the statement after its take to its give, so it
owns it wherever its Lua code is.  Hence it never waits as an owner in exactly
the runs in which every call of a worker finds its object ready, and no worker
is suspended while it is the owner.
-/

namespace CLIos

open Rtos Runs Locking

/-- The object that a call needs, and what it wants of it. -/
def FosCall.request : FosCall → Option (Nat × Request Int)
  | .queueSend id val => some (id, .send (LuaApi.toInt val))
  | .queueReceive id => some (id, .receive)
  | .mutexLock id => some (id, .lock)
  | .mutexUnlock id => some (id, .unlock)
  | .semTake id => some (id, .take)
  | .semGive id => some (id, .give)
  | _ => none

/-- What a call is for the task library. -/
def FosCall.taskEvents : FosCall → List TaskEvent
  | .taskCreate hasQueue spawned => [.create hasQueue spawned]
  | .task k o => [.op k o]
  | _ => []

def FosEvent.taskEvents : FosEvent → List TaskEvent
  | .call _ f => f.taskEvents
  | .worker k => [.op k .worker]
  | _ => []

/-- The places of `lua_task` at which it owns `luaMutex`. -/
def WorkerPc.guarded : WorkerPc → Bool
  | .rawgeti | .pcall | .give => true
  | _ => false

namespace LuaTask

/-- Of the operations only `suspend` suspends. -/
theorem control_suspended {t t' : LuaTask} {o : TaskOp} (h : t.control o = some t')
    (ho : o ≠ .suspend) (hs : t'.suspended = true) : t.suspended = true := by
  cases o with
  | suspend => exact absurd rfl ho
  | worker =>
    obtain ⟨-, -, -, hsame⟩ := workerStep_frame (control_worker h).1
    exact hsame ▸ hs
  | resume =>
    obtain ⟨u, -, rfl⟩ := Option.map_eq_some_iff.mp h
    cases hs
  | _ =>
    obtain ⟨u, hu, rfl⟩ := Option.map_eq_some_iff.mp h
    obtain ⟨-, rfl⟩ := checkTask_eq_some.mp hu
    exact hs

theorem control_suspend {t t' : LuaTask} (h : t.control .suspend = some t') :
    t'.suspended = true := by
  obtain ⟨u, -, rfl⟩ := Option.map_eq_some_iff.mp h
  rfl

theorem not_suspended_of_control_worker {t t' : LuaTask} (h : t.control .worker = some t') :
    t.suspended = false := by
  simp only [control] at h
  split at h
  · cases h
  · next hs => exact Bool.eq_false_iff.mpr hs

end LuaTask

namespace Fos

/-! ## What a call can do -/

/-- What a call by `c` can do.  Only the first two concern an object. -/
inductive Called (s : Fos) (c : Caller) : FosCall → Fos → Prop where
  | done (f : FosCall) (objects : List (Object Caller Int)) (received : List (Caller × Int))
      (hf : f.taskEvents = [])
      (hready : ∀ id r o, f.request = some (id, r) → s.objects[id]? = some o → o.Ready r) :
      Called s c f { s with objects := objects, received := received }
  | wait (f : FosCall) (id : Nat) (r : Request Int) (o : Object Caller Int)
      (hf : f.request = some (id, r)) (ho : s.objects[id]? = some o) (hwait : ¬ o.Ready r) :
      Called s c f (s.setWaiting c (some (.forever id r)))
  | delay : Called s c .taskDelay (s.setWaiting c (some .delay))
  | create (hasQueue spawned : Bool) (t : LuaTask) (ht : LuaTask.create hasQueue spawned = some t) :
      Called s c (.taskCreate hasQueue spawned) { s with tasks := s.tasks ++ [t] }
  | task (k : Nat) (o : TaskOp) (t t' : LuaTask) (ho : o ≠ .worker) (ht : s.tasks[k]? = some t)
      (ht' : t.step o = some t') :
      Called s c (.task k o) { s with tasks := s.tasks.set k t' }

theorem called_serve {s s' : Fos} {c : Caller} {f : FosCall} {id : Nat} {r : Request Int}
    (hf : f.request = some (id, r)) (h : s.serve c id r = some s') : Called s c f s' := by
  have htask : f.taskEvents = [] := by cases f <;> first | rfl | cases hf
  obtain ⟨o, ho, h⟩ := Option.bind_eq_some_iff.mp h
  cases hserve : o.serve c r with
  | done o' v =>
    simp only [hserve] at h
    cases h
    refine .done f _ _ htask fun id' r' o₁ hf' ho₁ => ?_
    obtain ⟨rfl, rfl⟩ : id = id' ∧ r = r' := by simpa [hf] using hf'
    obtain rfl : o = o₁ := Option.some.inj (ho.symm.trans ho₁)
    by_contra hwait
    rw [(o.serve_eq_wait_iff c r).mpr hwait] at hserve
    cases hserve
  | wait =>
    simp only [hserve] at h
    cases h
    exact .wait f id r o hf ho ((o.serve_eq_wait_iff c r).mp hserve)
  | refused =>
    simp only [hserve] at h
    cases h

theorem called_create {s s' : Fos} {c : Caller} {f : FosCall} {size : Nat} {made : Bool}
    {o : Object Caller Int} (hf : f.request = none) (htask : f.taskEvents = [])
    (h : s.create size made o = some s') : Called s c f s' := by
  have hready : ∀ id r o, f.request = some (id, r) → s.objects[id]? = some o → o.Ready r := by
    intro id r o hreq
    rw [hf] at hreq
    cases hreq
  unfold create at h
  split at h
  · cases h
  · split at h
    · cases h
      exact .done f _ s.received htask hready
    · cases h
      exact .done f s.objects s.received htask hready

theorem called {s s' : Fos} {c : Caller} {f : FosCall} (h : s.onCall c f = some s') :
    Called s c f s' := by
  cases f with
  | taskCreate hasQueue spawned =>
    obtain ⟨tasks, htasks, rfl⟩ := Option.map_eq_some_iff.mp h
    obtain ⟨t, ht, rfl⟩ := Option.map_eq_some_iff.mp htasks
    exact .create hasQueue spawned t ht
  | task k o =>
    simp only [onCall] at h
    split at h
    · cases h
    · next ho =>
      obtain ⟨tasks, htasks, rfl⟩ := Option.map_eq_some_iff.mp h
      obtain ⟨t, ht, htask⟩ := Option.bind_eq_some_iff.mp htasks
      obtain ⟨t', ht', rfl⟩ := Option.map_eq_some_iff.mp htask
      exact .task k o t t' ho ht ht'
  | taskDelay =>
    cases h
    exact .delay
  | queueCreate length made => exact called_create rfl rfl h
  | mutexCreate made =>
    have h : s.create 1 made (.mutex none) = some s' := h
    exact called_create rfl rfl h
  | semCreate count made => exact called_create rfl rfl h
  | queueSend id val => exact called_serve rfl h
  | queueReceive id => exact called_serve rfl h
  | mutexLock id => exact called_serve rfl h
  | mutexUnlock id => exact called_serve rfl h
  | semTake id => exact called_serve rfl h
  | semGive id => exact called_serve rfl h

/-- Waking changes no task and not `luaMutex`, and nobody waits who did not wait before. -/
theorem onWake_spec {s s' : Fos} {c : Caller} (h : s.onWake c = some s') :
    s'.tasks = s.tasks ∧ s'.luaMutex = s.luaMutex ∧
      ∀ c', s'.waiting c' = none ∨ s'.waiting c' = s.waiting c' := by
  have hclear : ∀ c', (s.setWaiting c none).waiting c' = none ∨
      (s.setWaiting c none).waiting c' = s.waiting c' := by
    intro c'
    by_cases hc : c' = c <;> simp [setWaiting, hc]
  unfold onWake at h
  split at h
  · cases h
  · split at h
    · cases h
    · cases h
      exact ⟨rfl, rfl, hclear⟩
    · obtain ⟨o, -, h⟩ := Option.bind_eq_some_iff.mp h
      split at h
      · cases h
        exact ⟨rfl, rfl, hclear⟩
      · cases h
      · cases h

theorem onWorker_eq_some {s s' : Fos} {k : Nat} (h : s.onWorker k = some s') :
    ∃ t m t', s.tasks[k]? = some t ∧ s.waiting (.worker k) = none ∧
      s.mutexAfter k t.worker = some m ∧ t.step .worker = some t' ∧
      s' = { s with tasks := s.tasks.set k t', luaMutex := m } := by
  obtain ⟨t, ht, hgo⟩ := Option.bind_eq_some_iff.mp h
  simp only [Option.ite_none_right_eq_some] at hgo
  obtain ⟨hwait, hgo⟩ := hgo
  obtain ⟨m, hm, hgo⟩ := Option.bind_eq_some_iff.mp hgo
  obtain ⟨s₁, hs₁, rfl⟩ := Option.map_eq_some_iff.mp hgo
  obtain ⟨tasks, htasks, rfl⟩ := Option.map_eq_some_iff.mp hs₁
  obtain ⟨u, hu, htask⟩ := Option.bind_eq_some_iff.mp htasks
  obtain rfl : t = u := Option.some.inj (ht.symm.trans hu)
  obtain ⟨t', ht', rfl⟩ := Option.map_eq_some_iff.mp htask
  exact ⟨t, m, t', ht, hwait, hm, ht', rfl⟩

/-! ## Where the owner of `luaMutex` is -/

structure Placed (s : Fos) : Prop where
  owner : ∀ (k : Nat) (t : LuaTask), s.tasks[k]? = some t →
    (t.worker.guarded = true ↔ s.luaMutex = some (.worker k))
  bound : ∀ k, s.luaMutex = some (.worker k) → k < s.tasks.length
  waiting : ∀ k, s.waiting (.worker k) ≠ none → ∃ t, s.tasks[k]? = some t ∧ t.worker = .pcall

/-- A worker that does not run on its own: suspended, or in a call with `portMAX_DELAY`. -/
def Blocked (s : Fos) (k : Nat) : Prop :=
  (∃ t, s.tasks[k]? = some t ∧ t.suspended = true) ∨
    ∃ id r, s.waiting (.worker k) = some (.forever id r)

def NoBlockedOwner (s : Fos) : Prop := ∀ k, s.Blocked k → s.luaMutex ≠ some (.worker k)

/-- A worker's call finds its object ready, and the owner is not suspended. -/
def Prompt (s : Fos) : FosEvent → Prop
  | .call c f =>
    (∀ k, c = .worker k → ∀ id r o, f.request = some (id, r) → s.objects[id]? = some o →
      o.Ready r) ∧
    ∀ k, f = .task k .suspend → s.luaMutex ≠ some (.worker k)
  | _ => True

theorem running_worker {s : Fos} {k : Nat} (h : s.running (.worker k) = true) :
    ∃ t, s.tasks[k]? = some t ∧ t.worker = .pcall := by
  obtain ⟨-, h⟩ := Bool.and_eq_true_iff.mp h
  have h : (s.tasks[k]?.any fun t => t.worker = .pcall && !t.suspended) = true := h
  cases ht : s.tasks[k]? with
  | none => simp [ht] at h
  | some t =>
    rw [ht] at h
    have hpc : t.worker = .pcall ∧ t.suspended = false := by simpa using h
    exact ⟨t, rfl, hpc.1⟩

/-- Lua code run by a worker runs under `luaMutex`. -/
theorem Placed.owns {s : Fos} (h : Placed s) {k : Nat} (hr : s.running (.worker k) = true) :
    s.luaMutex = some (.worker k) := by
  obtain ⟨t, ht, hpc⟩ := running_worker hr
  apply (h.owner k t ht).mp
  rw [hpc]
  rfl

theorem Placed.congr {s s' : Fos} (h : Placed s) (htasks : s'.tasks = s.tasks)
    (hmutex : s'.luaMutex = s.luaMutex)
    (hwaiting : ∀ c, s'.waiting c = none ∨ s'.waiting c = s.waiting c) : Placed s' := by
  refine ⟨?_, ?_, ?_⟩
  · rw [htasks, hmutex]
    exact h.owner
  · rw [htasks, hmutex]
    exact h.bound
  · intro k hk
    rw [htasks]
    apply h.waiting k
    rcases hwaiting (.worker k) with hw | hw
    · exact absurd hw hk
    · rwa [← hw]

theorem NoBlockedOwner.congr {s s' : Fos} (h : s.NoBlockedOwner) (htasks : s'.tasks = s.tasks)
    (hmutex : s'.luaMutex = s.luaMutex)
    (hwaiting : ∀ c, s'.waiting c = none ∨ s'.waiting c = s.waiting c) : s'.NoBlockedOwner := by
  intro k hk
  rw [hmutex]
  apply h k
  rcases hk with hk | ⟨id, r, hk⟩
  · rw [htasks] at hk
    exact Or.inl hk
  · rcases hwaiting (.worker k) with hw | hw
    · rw [hw] at hk
      cases hk
    · exact Or.inr ⟨id, r, hw ▸ hk⟩

theorem Placed.setWaiting {s : Fos} (h : Placed s) {c : Caller} (hr : s.running c = true)
    (w : Option Waiting) : Placed (s.setWaiting c w) := by
  refine ⟨h.owner, h.bound, fun k hk => ?_⟩
  by_cases hc : Caller.worker k = c
  · exact running_worker (s := s) (hc ▸ hr)
  · apply h.waiting k
    simpa [Fos.setWaiting, hc] using hk

/-- A task changes, but not the place of its worker. -/
theorem Placed.setTask {s : Fos} (h : Placed s) {k : Nat} {t t' : LuaTask}
    (ht : s.tasks[k]? = some t) (hpc : t'.worker = t.worker) :
    Placed { s with tasks := s.tasks.set k t' } := by
  refine ⟨fun j u hu => ?_, fun j hj => ?_, fun j hj => ?_⟩
  · rcases getElem?_set_cases ht hu with ⟨rfl, rfl⟩ | ⟨-, hu⟩
    · rw [hpc]
      exact h.owner j t ht
    · exact h.owner j u hu
  · show j < (s.tasks.set k t').length
    rw [List.length_set]
    exact h.bound j hj
  · obtain ⟨u, hu, hup⟩ := h.waiting j hj
    by_cases hjk : j = k
    · subst hjk
      obtain rfl : t = u := Option.some.inj (ht.symm.trans hu)
      refine ⟨t', List.getElem?_set_self (List.getElem?_eq_some_iff.mp ht).1, ?_⟩
      rw [hpc]
      exact hup
    · refine ⟨u, ?_, hup⟩
      show (s.tasks.set k t')[j]? = some u
      rw [List.getElem?_set_ne (Ne.symm hjk)]
      exact hu

/-- A new task is not suspended, and its worker does not own `luaMutex`. -/
theorem create_spec {hasQueue spawned : Bool} {t : LuaTask}
    (h : LuaTask.create hasQueue spawned = some t) :
    t.worker.guarded = false ∧ t.suspended = false := by
  unfold LuaTask.create at h
  split at h
  · cases h
    exact ⟨rfl, rfl⟩
  · split at h <;> cases h
    exact ⟨rfl, rfl⟩

theorem Placed.create {s : Fos} (h : Placed s) {t : LuaTask} (ht : t.worker.guarded = false) :
    Placed { s with tasks := s.tasks ++ [t] } := by
  refine ⟨fun j u hu => ?_, fun j hj => ?_, fun j hj => ?_⟩
  · rcases getElem?_concat_cases hu with hu | ⟨rfl, rfl⟩
    · exact h.owner j u hu
    · refine iff_of_false (by simp [ht]) fun hm => ?_
      have := h.bound _ hm
      omega
  · have := h.bound j hj
    show j < (s.tasks ++ [t]).length
    rw [List.length_append]
    omega
  · obtain ⟨u, hu, hup⟩ := h.waiting j hj
    refine ⟨u, ?_, hup⟩
    show (s.tasks ++ [t])[j]? = some u
    rw [List.getElem?_append_left (List.getElem?_eq_some_iff.mp hu).1]
    exact hu

/-! ## Calls -/

theorem call_placed {s s' : Fos} {c : Caller} {f : FosCall} (h : Placed s)
    (hr : s.running c = true) (hc : Called s c f s') : Placed s' := by
  cases hc with
  | done => exact h.congr rfl rfl fun _ => Or.inr rfl
  | wait => exact h.setWaiting hr _
  | delay => exact h.setWaiting hr _
  | create hasQueue spawned t ht => exact h.create (create_spec ht).1
  | task k o t t' ho ht ht' =>
    obtain ⟨u, hu, rfl⟩ := LuaTask.step_eq_some ht'
    exact h.setTask ht (LuaTask.control_op hu ho).2.2.1

theorem call_noBlockedOwner {s s' : Fos} {c : Caller} {f : FosCall} (hp : s.NoBlockedOwner)
    (hc : Called s c f s') (hq : s.Prompt (.call c f)) : s'.NoBlockedOwner := by
  cases hc with
  | done => exact hp.congr rfl rfl fun _ => Or.inr rfl
  | wait f id r o hf ho hwait =>
    -- the caller is no worker, and the workers wait as before
    have hne : ∀ k, Caller.worker k ≠ c := fun k hk => hwait (hq.1 k hk.symm id r o hf ho)
    rintro k (hk | ⟨id', r', hk⟩)
    · exact hp k (Or.inl hk)
    · apply hp k
      exact Or.inr ⟨id', r', by simpa [Fos.setWaiting, hne k] using hk⟩
  | delay =>
    rintro k (hk | ⟨id', r', hk⟩)
    · exact hp k (Or.inl hk)
    · apply hp k
      refine Or.inr ⟨id', r', ?_⟩
      by_cases hc : Caller.worker k = c
      · simp [Fos.setWaiting, hc] at hk
      · simpa [Fos.setWaiting, hc] using hk
  | create hasQueue spawned t ht =>
    rintro k (⟨u, hu, hs⟩ | hk)
    · rcases getElem?_concat_cases hu with hu | ⟨-, rfl⟩
      · exact hp k (Or.inl ⟨u, hu, hs⟩)
      · rw [(create_spec ht).2] at hs
        cases hs
    · exact hp k (Or.inr hk)
  | task k o t t' ho ht ht' =>
    obtain ⟨v, hv, rfl⟩ := LuaTask.step_eq_some ht'
    rintro j (⟨u, hu, hs⟩ | hj)
    · rcases getElem?_set_cases ht hu with ⟨rfl, rfl⟩ | ⟨-, hu⟩
      · by_cases hsus : o = .suspend
        · subst hsus
          exact hq.2 j rfl
        · exact hp j (Or.inl ⟨t, ht, LuaTask.control_suspended hv hsus hs⟩)
      · exact hp j (Or.inl ⟨u, hu, hs⟩)
    · exact hp j (Or.inr hj)

theorem prompt_of_call {s s' : Fos} {c : Caller} {f : FosCall} (h : Placed s)
    (hr : s.running c = true) (hc : Called s c f s') (hp : s'.NoBlockedOwner) :
    s.Prompt (.call c f) := by
  cases hc with
  | done f objects received htask hready =>
    exact ⟨fun _ _ => hready, fun k hf => by simp [hf, FosCall.taskEvents] at htask⟩
  | wait f id r o hf ho hwait =>
    refine ⟨fun k hk => ?_, fun k hk => ?_⟩
    · subst hk
      refine absurd (h.owns hr) (hp k (Or.inr ⟨id, r, ?_⟩))
      simp [Fos.setWaiting]
    · subst hk
      cases hf
  | delay => exact ⟨fun _ _ _ _ _ hf => (by cases hf), by simp⟩
  | create => exact ⟨fun _ _ _ _ _ hf => (by cases hf), by simp⟩
  | task k o t t' ho ht ht' =>
    refine ⟨fun _ _ _ _ _ hf => (by cases hf), fun j hj => ?_⟩
    obtain ⟨rfl, rfl⟩ : k = j ∧ o = .suspend := by simpa using hj
    obtain ⟨v, hv, rfl⟩ := LuaTask.step_eq_some ht'
    apply hp k
    refine Or.inl ⟨_, List.getElem?_set_self (List.getElem?_eq_some_iff.mp ht).1, ?_⟩
    show v.suspended = true
    exact LuaTask.control_suspend hv

/-! ## Statements of a worker -/

/-- `luaMutex` goes to worker `k` at its take and from it at its give. -/
theorem mutexAfter_spec {s : Fos} (h : Placed s) {k : Nat} {t t' : LuaTask} {m : Option Caller}
    (ht : s.tasks[k]? = some t) (hm : s.mutexAfter k t.worker = some m)
    (hw : t.workerStep = some t') : (t'.worker.guarded = true ↔ m = some (.worker k)) ∧
      ∀ j, j ≠ k → (m = some (.worker j) ↔ s.luaMutex = some (.worker j)) := by
  have hsame : t'.worker.guarded = t.worker.guarded → m = s.luaMutex →
      (t'.worker.guarded = true ↔ m = some (.worker k)) ∧
        ∀ j, j ≠ k → (m = some (.worker j) ↔ s.luaMutex = some (.worker j)) := by
    rintro hg rfl
    rw [hg]
    exact ⟨h.owner k t ht, fun _ _ => Iff.rfl⟩
  unfold LuaTask.workerStep at hw
  cases hpc : t.worker with
  | take =>
    simp only [hpc, mutexAfter, Option.ite_none_right_eq_some] at hm hw
    obtain ⟨hnone, hm⟩ := hm
    cases hm
    cases hw
    refine ⟨iff_of_true rfl rfl, fun j hj => ?_⟩
    simp [hnone, Ne.symm hj]
  | give =>
    simp only [hpc, mutexAfter, Option.ite_none_right_eq_some] at hm hw
    obtain ⟨howner, hm⟩ := hm
    cases hm
    cases hw
    refine ⟨iff_of_false Bool.false_ne_true (by simp), fun j hj => ?_⟩
    simp [howner, Ne.symm hj]
  | _ =>
    simp only [hpc, mutexAfter] at hm hw
    cases hm
    refine hsame ?_ rfl
    rw [hpc]
    (try split at hw) <;> cases hw <;> rfl

theorem Placed.onWorker {s s' : Fos} (h : Placed s) {k : Nat} (hs : s.onWorker k = some s') :
    Placed s' := by
  obtain ⟨t, m, t', ht, hwait, hm, ht', rfl⟩ := onWorker_eq_some hs
  obtain ⟨v, hv, rfl⟩ := LuaTask.step_eq_some ht'
  obtain ⟨hself, hother⟩ := mutexAfter_spec h ht hm (LuaTask.control_worker hv).1
  have hk : k < s.tasks.length := (List.getElem?_eq_some_iff.mp ht).1
  refine ⟨fun j u hu => ?_, fun j hj => ?_, fun j hj => ?_⟩
  · rcases getElem?_set_cases ht hu with ⟨rfl, rfl⟩ | ⟨hne, hu⟩
    · exact hself
    · exact (h.owner j u hu).trans (hother j hne).symm
  · show j < (s.tasks.set k _).length
    rw [List.length_set]
    by_cases hjk : j = k
    · omega
    · exact h.bound j ((hother j hjk).mp hj)
  · have hjk : j ≠ k := by
      rintro rfl
      exact hj hwait
    obtain ⟨u, hu, hup⟩ := h.waiting j hj
    refine ⟨u, ?_, hup⟩
    show (s.tasks.set k _)[j]? = some u
    rw [List.getElem?_set_ne (Ne.symm hjk)]
    exact hu

/-- A worker that executes a statement is neither suspended nor in a call. -/
theorem worker_noBlockedOwner {s s' : Fos} {k : Nat} (h : Placed s) (hp : s.NoBlockedOwner)
    (hs : s.onWorker k = some s') : s'.NoBlockedOwner := by
  obtain ⟨t, m, t', ht, hwait, hm, ht', rfl⟩ := onWorker_eq_some hs
  obtain ⟨v, hv, rfl⟩ := LuaTask.step_eq_some ht'
  obtain ⟨-, hother⟩ := mutexAfter_spec h ht hm (LuaTask.control_worker hv).1
  rintro j (⟨u, hu, hsus⟩ | ⟨id, r, hj⟩)
  · rcases getElem?_set_cases ht hu with ⟨rfl, rfl⟩ | ⟨hne, hu⟩
    · have hrun := LuaTask.not_suspended_of_control_worker hv
      rw [LuaTask.control_suspended hv (by decide) hsus] at hrun
      cases hrun
    · rw [ne_eq, hother j hne]
      exact hp j (Or.inl ⟨u, hu, hsus⟩)
  · have hjk : j ≠ k := by
      rintro rfl
      rw [hwait] at hj
      cases hj
    rw [ne_eq, hother j hjk]
    exact hp j (Or.inr ⟨id, r, hj⟩)

/-! ## Every step -/

theorem Placed.step {s s' : Fos} (h : Placed s) {e : FosEvent} (hs : s.step e = some s') :
    Placed s' := by
  cases e with
  | call c f =>
    obtain ⟨hr, hs⟩ := Option.ite_none_right_eq_some.mp hs
    exact call_placed h hr (called hs)
  | wake c =>
    obtain ⟨htasks, hmutex, hwaiting⟩ := onWake_spec hs
    exact h.congr htasks hmutex hwaiting
  | worker k => exact h.onWorker hs
  | giveBoot =>
    obtain ⟨⟨hmain, -⟩, hs⟩ := Option.ite_none_right_eq_some.mp hs
    cases hs
    refine ⟨fun k t ht => ?_, by rintro k ⟨⟩, h.waiting⟩
    rw [h.owner k t ht, hmain]
    exact iff_of_false (by rintro ⟨⟩) (by rintro ⟨⟩)

theorem placed_boot : Placed boot where
  owner := fun k t ht => by cases ht
  bound := fun k hk => by cases hk
  waiting := fun k hk => absurd rfl hk

theorem step_spec {s s' : Fos} {e : FosEvent} (h : Placed s ∧ s.NoBlockedOwner)
    (hs : s.step e = some s') : (s.Prompt e → Placed s' ∧ s'.NoBlockedOwner) ∧
      (s'.NoBlockedOwner → s.Prompt e) := by
  obtain ⟨h, hp⟩ := h
  have hplaced : Placed s' := h.step hs
  cases e with
  | call c f =>
    obtain ⟨hr, hs⟩ := Option.ite_none_right_eq_some.mp hs
    have hc := called hs
    exact ⟨fun hq => ⟨hplaced, call_noBlockedOwner hp hc hq⟩, prompt_of_call h hr hc⟩
  | wake c =>
    obtain ⟨htasks, hmutex, hwaiting⟩ := onWake_spec hs
    exact ⟨fun _ => ⟨hplaced, hp.congr htasks hmutex hwaiting⟩, fun _ => trivial⟩
  | worker k => exact ⟨fun _ => ⟨hplaced, worker_noBlockedOwner h hp hs⟩, fun _ => trivial⟩
  | giveBoot =>
    obtain ⟨-, hs⟩ := Option.ite_none_right_eq_some.mp hs
    cases hs
    exact ⟨fun _ => ⟨hplaced, by simp [NoBlockedOwner]⟩, fun _ => trivial⟩

/-- The tasks go through the steps of the task library. -/
theorem tasks_step {s s' : Fos} {e : FosEvent} (h : s.step e = some s') :
    e.taskEvents.foldlM taskStep s.tasks = some s'.tasks := by
  have hone : ∀ e', taskStep s.tasks e' = some s'.tasks →
      [e'].foldlM taskStep s.tasks = some s'.tasks := by
    intro e' he'
    rw [List.foldlM_cons, he']
    rfl
  cases e with
  | call c f =>
    simp only [step, Option.ite_none_right_eq_some] at h
    cases called h.2 with
    | done f objects received htask =>
      show f.taskEvents.foldlM taskStep s.tasks = some s.tasks
      rw [htask]
      rfl
    | wait f id r o hf => cases f <;> first | rfl | cases hf
    | delay => rfl
    | create hasQueue spawned t ht =>
      apply hone
      show (LuaTask.create hasQueue spawned).map _ = _
      rw [ht]
      rfl
    | task k o t t' ho ht ht' =>
      apply hone
      show s.tasks[k]?.bind _ = _
      rw [ht, Option.bind_some, ht']
      rfl
  | wake c =>
    rw [(onWake_spec h).1]
    rfl
  | worker k =>
    obtain ⟨t, m, t', ht, -, -, ht', rfl⟩ := onWorker_eq_some h
    apply hone
    show s.tasks[k]?.bind _ = _
    rw [ht, Option.bind_some, ht']
    rfl
  | giveBoot =>
    simp only [step, Option.ite_none_right_eq_some] at h
    cases h.2
    rfl

end Fos

/-- What is known of the runs of the task library holds of the tasks here. -/
theorem fos_tasks_run (es : List FosEvent) (s : Fos) (h : fos.run es = some s) :
    luaTaskLib.run (es.flatMap FosEvent.taskEvents) = some s.tasks :=
  Machine.run_of_simulation Fos.tasks FosEvent.taskEvents rfl (fun _ _ _ => Fos.tasks_step) es s h

/-- **Hold and wait.**  No worker that is suspended or waits with `portMAX_DELAY`
owns `luaMutex` in exactly the runs in which the calls of the workers need not
wait and the owner is not suspended. -/
theorem noBlockedOwner_iff (es : List FosEvent) :
    fos.Always Fos.NoBlockedOwner es ↔ fos.Along Fos.Prompt es := by
  apply Machine.always_iff_along (I := fun s => Fos.Placed s ∧ s.NoBlockedOwner)
  · refine ⟨Fos.placed_boot, fun k _ => ?_⟩
    simp [fos, Fos.boot]
  · exact fun s h => h.2
  · exact fun s e s' h hs => Fos.step_spec h hs

/-- A worker that receives from an empty queue. -/
theorem receiver_keeps_luaMutex : ¬ ∀ es, fos.Always Fos.NoBlockedOwner es := by
  intro h
  have hrun : ∃ s, fos.run ([.call .main (.queueCreate 1 true), .call .main (.taskCreate true true),
      .call .main (.task 0 .start), .giveBoot] ++ List.replicate 6 (.worker 0) ++
      [.call (.worker 0) (.queueReceive 0)]) = some s ∧
        s.waiting (.worker 0) = some (.forever 0 .receive) ∧ s.luaMutex = some (.worker 0) :=
    ⟨_, rfl, rfl, rfl⟩
  obtain ⟨s, hs, hwait, hown⟩ := hrun
  exact h _ _ s List.prefix_rfl hs 0 (Or.inr ⟨0, .receive, hwait⟩) hown

end CLIos
