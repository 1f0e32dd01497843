import CLIos.Fos.Task

/-!
# Who owns the block, the queue and the reference

Each of the three has two owners.  A task is used in order (`Orderly`) when only
one of them ever acts as such: `__gc` runs at most once and before the worker
releases anything, nothing calls the library for a task whose worker has freed
its block (or, for `start`, deleted its queue), and after `__gc` the worker
makes no step that uses one of the three.
-/

namespace CLIos

open Resources Runs

/-- The worker has not released `r` yet. -/
def WorkerPc.keeps (p : WorkerPc) : TaskResource → Bool
  | .ref => match p with
    | .queueDelete | .freeParam | .taskDelete | .deleted => false
    | _ => true
  | .queue => match p with
    | .absent | .freeParam | .taskDelete | .deleted => false
    | _ => true
  | .param => match p with
    | .absent | .taskDelete | .deleted => false
    | _ => true

/-- The reference is the first of the three that the worker releases. -/
theorem WorkerPc.keeps_of_ref {p : WorkerPc} (hp : p ≠ .absent) (h : p.keeps .ref = true)
    (r : TaskResource) : p.keeps r = true := by
  cases p with
  | absent => exact absurd rfl hp
  | _ => cases r <;> first | rfl | cases h

namespace LuaTask

def Orderly (t : LuaTask) : TaskOp → Prop
  | .start => t.finalized = false ∧ t.worker.keeps .param = true ∧
      (t.hasQueue = true → t.worker.keeps .queue = true)
  | .stop | .suspend | .resume => t.finalized = false ∧ t.worker.keeps .param = true
  | .callGc | .collect => t.finalized = false ∧ t.worker.keeps .ref = true
  | .worker => t.finalized = true → t.worker.accesses = []

/-- Whether `r` has been released, told by the places of the two owners. -/
def gone (t : LuaTask) : TaskResource → Bool
  | .param => t.finalized || !t.worker.keeps .param
  | .queue => (t.finalized && t.hasQueue) || !t.worker.keeps .queue
  | .ref => t.finalized || !t.worker.keeps .ref

structure Good (t : LuaTask) : Prop where
  releases : ∀ r, t.ledger.releases r = (t.gone r).toNat
  stale : t.ledger.stale = false
  queue : t.worker = .receive → t.hasQueue = true
  absent : t.worker = .absent → t.userdata = .absent

theorem Good.clean {t : LuaTask} (h : Good t) : t.ledger.Clean :=
  ⟨fun r => by rw [h.releases r]; exact Bool.toNat_le _, h.stale⟩

theorem Good.releases_eq_zero {t : LuaTask} (h : Good t) (r : TaskResource) :
    t.ledger.releases r = 0 ↔ t.gone r = false := by
  rw [h.releases r]
  cases t.gone r <;> decide

theorem create_good {hasQueue spawned : Bool} {t : LuaTask}
    (h : create hasQueue spawned = some t) : Good t := by
  unfold create at h
  split at h
  · cases h
    exact ⟨fun r => by cases r <;> simp [gone, WorkerPc.keeps, Ledger.empty], rfl, by simp, by simp⟩
  · split at h
    · cases h
      exact ⟨fun r => by cases r <;> rfl, rfl, by simp, fun _ => rfl⟩
    · cases h

/-- Orderly use is use of what is not gone. -/
theorem Good.orderly_iff {t : LuaTask} (h : Good t) (ha : t.worker ≠ .absent) (o : TaskOp) :
    t.Orderly o ↔ ∀ a ∈ t.accesses o, t.gone a.resource = false := by
  have hgc : t.finalized = false ∧ t.worker.keeps .ref = true ↔
      ∀ a ∈ t.accesses .callGc, t.gone a.resource = false := by
    constructor
    · rintro ⟨hf, hr⟩
      intro a _
      have hk := WorkerPc.keeps_of_ref ha hr
      cases a.resource <;> simp [gone, hf, hk]
    · intro hall
      have href : t.gone .ref = false := by
        apply hall (.release .ref)
        by_cases hq : t.hasQueue = true <;> simp [accesses, hq]
      simpa [gone] using href
  cases o with
  | start =>
    by_cases hq : t.hasQueue = true
    · by_cases hf : t.finalized = true <;> simp [Orderly, accesses, gone, hq, hf, Access.resource]
    · simp [Orderly, accesses, gone, hq, Access.resource]
  | stop => simp [Orderly, accesses, gone, Access.resource]
  | suspend => simp [Orderly, accesses, gone, Access.resource]
  | resume => simp [Orderly, accesses, gone, Access.resource]
  | callGc => exact hgc
  | collect => exact hgc
  | worker =>
    show (t.finalized = true → t.worker.accesses = []) ↔
      ∀ a ∈ t.worker.accesses, t.gone a.resource = false
    -- before `__gc` the worker only uses what it has not released itself
    by_cases hf : t.finalized = true
    · cases hw : t.worker with
      | receive => simp [WorkerPc.accesses, gone, Access.resource, hf, h.queue hw]
      | _ => simp [WorkerPc.accesses, gone, Access.resource, hf]
    · cases hw : t.worker <;> simp [WorkerPc.accesses, gone, Access.resource, hf, hw,
        WorkerPc.keeps]

/-- No step uses a resource that it has released itself. -/
theorem accesses_ordered (t : LuaTask) (o : TaskOp) :
    (t.accesses o).Pairwise fun a b => a ≠ .release b.resource := by
  cases o with
  | worker =>
    show t.worker.accesses.Pairwise _
    cases t.worker <;> decide
  | _ => cases hq : t.hasQueue <;> simp only [accesses, hq] <;> decide

/-- An operation needs the userdata and leaves the worker where it is. -/
theorem control_op {t t' : LuaTask} {o : TaskOp} (hc : t.control o = some t')
    (ho : o ≠ .worker) : t.userdata = .reachable ∧ t'.userdata ≠ .absent ∧
      t'.worker = t.worker ∧ t'.hasQueue = t.hasQueue ∧
      t'.finalized = (t.finalized || o = .callGc || o = .collect) := by
  have hcheck : ∀ f : LuaTask → LuaTask, t.checkTask.map f = some t' →
      t.userdata = .reachable ∧ t' = f t := by
    intro f h
    obtain ⟨u, hu, rfl⟩ := Option.map_eq_some_iff.mp h
    obtain ⟨hreach, rfl⟩ := checkTask_eq_some.mp hu
    exact ⟨hreach, rfl⟩
  cases o with
  | worker => exact absurd rfl ho
  | _ =>
    obtain ⟨hu, rfl⟩ := hcheck _ hc
    simp [hu]

/-- The worker makes its step, and the rest of the task stays as it is. -/
theorem control_worker {t t' : LuaTask} (hc : t.control .worker = some t') :
    t.workerStep = some t' ∧ t'.hasQueue = t.hasQueue ∧ t'.finalized = t.finalized ∧
      t'.userdata = t.userdata := by
  simp only [control] at hc
  split at hc
  · cases hc
  · obtain ⟨hq, hf, hu, -⟩ := workerStep_frame hc
    exact ⟨hc, hq, hf, hu⟩

/-- Only a task with a queue gets as far as waiting on it. -/
theorem workerStep_place {t t' : LuaTask} (h : t.workerStep = some t') :
    t'.worker ≠ .absent ∧ (t'.worker = .receive → t.hasQueue = true) := by
  unfold workerStep at h
  cases hw : t.worker <;> simp only [hw] at h <;> (try split at h) <;> cases h <;> simp_all

/-- What the worker's step releases is what its next place no longer keeps. -/
theorem workerStep_keeps {t t' : LuaTask} (h : t.workerStep = some t') (r : TaskResource) :
    (!t.worker.keeps r).toNat + t.worker.accesses.count (.release r) =
      (!t'.worker.keeps r).toNat := by
  unfold workerStep at h
  cases hw : t.worker <;> simp only [hw] at h <;> (try split at h) <;> cases h <;> cases r <;> rfl

theorem gone_worker {t t' : LuaTask} (hc : t.control .worker = some t') (ho : t.Orderly .worker)
    (r : TaskResource) :
    (t.gone r).toNat + (t.accesses .worker).count (.release r) = (t'.gone r).toNat := by
  obtain ⟨hw, hq, hf, -⟩ := control_worker hc
  have hkeeps := workerStep_keeps hw r
  show _ + t.worker.accesses.count _ = _
  by_cases hfin : t.finalized = true
  · -- the worker uses nothing, so it stays with what it keeps
    have hnone : t.worker.accesses = [] := ho hfin
    rw [hnone, List.count_nil, Nat.add_zero] at hkeeps ⊢
    have hsame : (!t.worker.keeps r) = !t'.worker.keeps r := by
      cases hk : t.worker.keeps r <;> cases hk' : t'.worker.keeps r <;> simp [hk, hk'] at hkeeps ⊢
    cases r <;> simp only [gone, hq, hf, hsame]
  · have hgone : t.gone r = !t.worker.keeps r := by cases r <;> simp [gone, hfin]
    have hgone' : t'.gone r = !t'.worker.keeps r := by cases r <;> simp [gone, hf, hfin]
    rw [hgone, hgone', hkeeps]

theorem gone_op {t t' : LuaTask} {o : TaskOp} (h : Good t) (hc : t.control o = some t')
    (hw : o ≠ .worker) (ho : t.Orderly o) (r : TaskResource) :
    (t.gone r).toNat + (t.accesses o).count (.release r) = (t'.gone r).toNat := by
  obtain ⟨hu, -, hw', hq, hf⟩ := control_op hc hw
  have hpc : t.worker ≠ .absent := fun hw => by
    rw [h.absent hw] at hu
    cases hu
  -- `__gc` finds the three where they were and releases those that exist
  have hgc : t.finalized = false ∧ t.worker.keeps .ref = true → t'.finalized = true →
      (t.gone r).toNat + (t.accesses .callGc).count (.release r) = (t'.gone r).toNat := by
    rintro ⟨hfin, href⟩ hfin'
    have hk := WorkerPc.keeps_of_ref hpc href
    by_cases hqueue : t.hasQueue = true
    · simp only [accesses, hqueue, if_true]
      cases r <;> simp [gone, hfin, hfin', hw', hq, hk, hqueue]
    · simp only [accesses, hqueue]
      cases r <;> simp [gone, hfin, hfin', hw', hq, hk, hqueue]
  -- the other operations release nothing
  have hother : t'.finalized = t.finalized → (t.accesses o).count (.release r) = 0 →
      (t.gone r).toNat + (t.accesses o).count (.release r) = (t'.gone r).toNat := by
    intro hfin hcount
    rw [hcount]
    cases r <;> simp [gone, hfin, hw', hq]
  cases o with
  | start =>
    apply hother
    · simpa using hf
    · cases hqueue : t.hasQueue <;> simp [accesses, hqueue]
  | stop => exact hother (by simpa using hf) (by simp [accesses])
  | suspend => exact hother (by simpa using hf) (by simp [accesses])
  | resume => exact hother (by simpa using hf) (by simp [accesses])
  | callGc => exact hgc ho (by simpa using hf)
  | collect => exact hgc ho (by simpa using hf)
  | worker => exact absurd rfl hw

/-- What the step releases is what has gone after it. -/
theorem Good.releases_step {t t' : LuaTask} {o : TaskOp} (h : Good t) (ho : t.Orderly o)
    (hc : t.control o = some t') (r : TaskResource) :
    (t.ledger.record (t.accesses o)).releases r = (t'.gone r).toNat := by
  rw [Ledger.releases_record, h.releases r]
  by_cases hw : o = .worker
  · subst hw
    exact gone_worker hc ho r
  · exact gone_op h hc hw ho r

theorem step_eq_some {t t' : LuaTask} {o : TaskOp} (h : t.step o = some t') :
    ∃ u, t.control o = some u ∧ t' = { u with ledger := t.ledger.record (t.accesses o) } := by
  obtain ⟨u, hu, rfl⟩ := Option.map_eq_some_iff.mp h
  exact ⟨u, hu, rfl⟩

/-- A task whose worker is missing has no userdata and makes no step. -/
theorem Good.present {t u : LuaTask} {o : TaskOp} (h : Good t) (hc : t.control o = some u) :
    t.worker ≠ .absent := by
  intro hpc
  by_cases hw : o = .worker
  · subst hw
    have hstep := (control_worker hc).1
    simp [workerStep, hpc] at hstep
  · have hu := (control_op hc hw).1
    rw [h.absent hpc] at hu
    cases hu

theorem Good.step {t t' : LuaTask} {o : TaskOp} (h : Good t) (ho : t.Orderly o)
    (hs : t.step o = some t') : Good t' := by
  obtain ⟨u, hc, rfl⟩ := step_eq_some hs
  have hunused := (h.orderly_iff (h.present hc) o).mp ho
  refine ⟨fun r => h.releases_step ho hc r, ?_, ?_, ?_⟩
  · exact Ledger.stale_record _ _ h.stale
      (fun a ha => (h.releases_eq_zero _).mpr (hunused a ha)) (t.accesses_ordered o)
  · show u.worker = .receive → u.hasQueue = true
    by_cases hw : o = .worker
    · subst hw
      obtain ⟨hstep, hq, -⟩ := control_worker hc
      rw [hq]
      exact (workerStep_place hstep).2
    · obtain ⟨-, -, hpc, hq, -⟩ := control_op hc hw
      rw [hpc, hq]
      exact h.queue
  · show u.worker = .absent → u.userdata = .absent
    intro hpc
    by_cases hw : o = .worker
    · subst hw
      exact absurd hpc (workerStep_place (control_worker hc).1).1
    · rw [(control_op hc hw).2.2.1] at hpc
      exact absurd hpc (h.present hc)

end LuaTask

/-- Each of the three is released at most once and not used after that. -/
def Owned (s : List LuaTask) : Prop := ∀ t ∈ s, t.ledger.Clean

def Orderly (s : List LuaTask) : TaskEvent → Prop
  | .create _ _ => True
  | .op k o => ∀ t, s[k]? = some t → t.Orderly o

theorem good_step {s s' : List LuaTask} {e : TaskEvent} (h : ∀ t ∈ s, t.Good)
    (hs : taskStep s e = some s') : (Orderly s e → ∀ t ∈ s', t.Good) ∧ (Owned s' → Orderly s e) := by
  cases e with
  | create hasQueue spawned =>
    obtain ⟨t, ht, rfl⟩ := Option.map_eq_some_iff.mp hs
    refine ⟨fun _ u hu => ?_, fun _ => trivial⟩
    rcases List.mem_append.mp hu with hu | hu
    · exact h u hu
    · rw [List.mem_singleton.mp hu]
      exact LuaTask.create_good ht
  | op k o =>
    obtain ⟨t, ht, hs⟩ := Option.bind_eq_some_iff.mp hs
    obtain ⟨t', ht', rfl⟩ := Option.map_eq_some_iff.mp hs
    have hgood := h t (List.mem_of_getElem? ht)
    constructor
    · intro ho u hu
      rcases List.mem_or_eq_of_mem_set hu with hu | rfl
      · exact h u hu
      · exact hgood.step (ho t ht) ht'
    · intro hown u hu
      obtain rfl : t = u := Option.some.inj (ht.symm.trans hu)
      have hk : k < s.length := (List.getElem?_eq_some_iff.mp ht).1
      have hclean := (hown t' (List.mem_set hk t')).2
      obtain ⟨v, hc, rfl⟩ := LuaTask.step_eq_some ht'
      apply (hgood.orderly_iff (hgood.present hc) o).mpr
      intro a ha
      exact (hgood.releases_eq_zero _).mp ((Ledger.not_released_of_record _ _ hclean).2 a ha)

/-- **Ownership.**  The block, the queue and the reference of every task are
released at most once and not used afterwards in exactly the runs that use every
task in order. -/
theorem task_ownership_iff (es : List TaskEvent) :
    luaTaskLib.Always Owned es ↔ luaTaskLib.Along Orderly es := by
  apply Machine.always_iff_along (I := fun s => ∀ t ∈ s, t.Good)
  · intro t ht
    cases ht
  · exact fun s h t ht => (h t ht).clean
  · exact fun s e s' h hs => good_step h hs

/-- A task stopped by Lua code, whose userdata is collected when its worker has gone. -/
theorem task_released_twice :
    ¬ ∀ es, luaTaskLib.Always Owned es := by
  intro h
  have hrun : ∃ t, luaTaskLib.run ([.create true true, .op 0 .worker, .op 0 .start, .op 0 .worker,
      .op 0 .worker, .op 0 .stop] ++ List.replicate 5 (.op 0 .worker) ++ [.op 0 .collect]) =
        some [t] ∧ t.ledger.releases .param = 2 := ⟨_, rfl, rfl⟩
  obtain ⟨t, ht, hparam⟩ := hrun
  have hone := (h _ _ _ List.prefix_rfl ht t List.mem_cons_self).1 .param
  omega

end CLIos
