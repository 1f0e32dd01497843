import CLIos.Fos.Task

/-!
# What start and stop do to the calls

`countedTask` is one task whose userdata is in use: Lua code starts, stops,
suspends and resumes it while its worker runs, in any order.  Beside the task it
keeps the counts that the two operations are about.  A call of the Lua function
begins with the worker's step at `lua_pcall`; between it and the test of
`stop_flag` lie the wait for `luaMutex` and `lua_rawgeti`.
-/

namespace CLIos

open Runs

structure CountedTask where
  task : LuaTask
  /-- the start messages queued -/
  queued : Nat
  /-- the calls of the Lua function begun -/
  begun : Nat
  /-- those begun after a stop -/
  afterStop : Nat
  /-- a stop came before the worker had its start message -/
  stoppedFirst : Bool

/-- The worker has not received its start message. -/
def WorkerPc.awaits : WorkerPc → Bool
  | .started | .receive => true
  | _ => false

/-- The worker has tested `stop_flag` and is going to call the function. -/
def WorkerPc.committed : WorkerPc → Bool
  | .take | .rawgeti | .pcall => true
  | _ => false

/-- A call has begun and the flag has not been tested since. -/
def WorkerPc.called : WorkerPc → Bool
  | .give | .delayUntil => true
  | _ => false

namespace CountedTask

def start (hasQueue : Bool) : CountedTask where
  task := ⟨hasQueue, 0, false, false, .started, .reachable, false, Resources.Ledger.empty⟩
  queued := 0
  begun := 0
  afterStop := 0
  stoppedFirst := false

/-- `xQueueSend` without a wait finds one of the 10 places free. -/
def queues (s : CountedTask) (o : TaskOp) : Bool :=
  o == .start && s.task.hasQueue && decide (s.task.messages < 10)

def begins (s : CountedTask) (o : TaskOp) : Bool := o == .worker && s.task.worker == .pcall

def step (s : CountedTask) (o : TaskOp) : Option CountedTask :=
  if o = .callGc ∨ o = .collect then none
  else (s.task.step o).map fun task => {
    task := task
    queued := s.queued + (s.queues o).toNat
    begun := s.begun + (s.begins o).toNat
    afterStop := s.afterStop + (s.begins o && s.task.stopFlag).toNat
    stoppedFirst := s.stoppedFirst || (o == .stop && s.task.worker.awaits) }

end CountedTask

/-- One task, from `L_TASK_CREATE` on. -/
def countedTask (hasQueue : Bool) : Machine CountedTask TaskOp where
  init := CountedTask.start hasQueue
  step := CountedTask.step

theorem countedTask_init (hasQueue : Bool) :
    LuaTask.create hasQueue true = some (countedTask hasQueue).init.task := rfl

namespace CountedTask

/-- No call without a start, at most one after a stop, and none if the stop was
there before the start was received. -/
structure StopIsFinal (s : CountedTask) : Prop where
  started : 0 < s.begun → 0 < s.queued
  afterStop : s.afterStop ≤ 1
  stoppedFirst : s.stoppedFirst = true → s.begun = 0

/-- What the counts are at each place of the worker. -/
structure Counts (s : CountedTask) : Prop where
  messages : s.task.messages ≤ s.queued
  received : s.task.worker.awaits = false → 0 < s.queued
  awaits : s.task.worker.awaits = true → s.begun = 0
  running : s.task.stopFlag = false → s.afterStop = 0
  committed : s.task.worker.committed = true → s.afterStop = 0
  afterStop : s.afterStop ≤ 1
  stopped : s.stoppedFirst = true → s.task.stopFlag = true ∧ s.begun = 0 ∧
    s.task.worker.committed = false ∧ s.task.worker.called = false

theorem Counts.stopIsFinal {s : CountedTask} (h : s.Counts) : s.StopIsFinal where
  started := by
    intro hpos
    refine h.received ?_
    by_contra haw
    have := h.awaits (by simpa using haw)
    omega
  afterStop := h.afterStop
  stoppedFirst := fun hs => (h.stopped hs).2.1

theorem counts_start (hasQueue : Bool) : (start hasQueue).Counts where
  messages := Nat.le_refl _
  received := by intro h; cases h
  awaits := fun _ => rfl
  running := fun _ => rfl
  committed := fun _ => rfl
  afterStop := Nat.zero_le _
  stopped := by intro h; cases h

/-- An operation of Lua code leaves the worker where it is. -/
theorem Counts.control {s : CountedTask} (h : s.Counts) {task : LuaTask} {queued : Nat}
    {stoppedFirst : Bool} (hworker : task.worker = s.task.worker)
    (hmessages : task.messages ≤ queued) (hqueued : s.queued ≤ queued)
    (hstop : task.stopFlag = false → s.task.stopFlag = false)
    (hfirst : stoppedFirst = true → s.stoppedFirst = true ∨
      (task.stopFlag = true ∧ s.task.worker.awaits = true)) :
    Counts ⟨task, queued, s.begun, s.afterStop, stoppedFirst⟩ where
  messages := hmessages
  received := by
    intro haw
    exact Nat.lt_of_lt_of_le (h.received (hworker ▸ haw)) hqueued
  awaits := by
    intro haw
    exact h.awaits (hworker ▸ haw)
  running := fun hrun => h.running (hstop hrun)
  committed := by
    intro hc
    exact h.committed (hworker ▸ hc)
  afterStop := h.afterStop
  stopped := by
    intro hs
    show _ ∧ _ ∧ task.worker.committed = false ∧ task.worker.called = false
    rw [hworker]
    rcases hfirst hs with hs | ⟨hflag, haw⟩
    · obtain ⟨hflag, hrest⟩ := h.stopped hs
      refine ⟨?_, hrest⟩
      by_contra hne
      rw [hstop (Bool.eq_false_iff.mpr hne)] at hflag
      cases hflag
    · refine ⟨hflag, h.awaits haw, ?_, ?_⟩
      · cases hw : s.task.worker <;> rw [hw] at haw <;> first | rfl | cases haw
      · cases hw : s.task.worker <;> rw [hw] at haw <;> first | rfl | cases haw

/-- A step of the worker: it receives the message, tests the flag, begins a
call, or does none of these. -/
inductive WorkerMove (t t' : LuaTask) : Prop
  | receives (hw : t.worker = .receive) (hw' : t'.worker = .interval) (hpos : 0 < t.messages)
      (hm : t'.messages = t.messages - 1)
  | tests (hw : t.worker = .testStop) (hw' : t'.worker = if t.stopFlag then .unref else .take)
      (hm : t'.messages = t.messages)
  | begins (hw : t.worker = .pcall) (hw' : t'.worker = .give) (hm : t'.messages = t.messages)
  | other (hne : t.worker ≠ .pcall) (haw : t'.worker.awaits = t.worker.awaits)
      (hc : t'.worker.committed = t.worker.committed)
      (hcalled : t'.worker.called = true → t.worker.called = true)
      (hm : t'.messages = t.messages)

theorem workerStep_cases {t t' : LuaTask} (h : t.workerStep = some t') :
    t'.stopFlag = t.stopFlag ∧ WorkerMove t t' := by
  unfold LuaTask.workerStep at h
  have hother : ∀ w, some { t with worker := w } = some t' → t.worker ≠ .pcall →
      w.awaits = t.worker.awaits → w.committed = t.worker.committed →
      (w.called = true → t.worker.called = true) →
      t'.stopFlag = t.stopFlag ∧ WorkerMove t t' := by
    intro w hw hne haw hc hcalled
    obtain rfl := Option.some.inj hw
    exact ⟨rfl, .other hne haw hc hcalled rfl⟩
  cases hw : t.worker <;> rw [hw] at h hother
  case absent => cases h
  case deleted => cases h
  case started =>
    dsimp only at h
    split at h
    · exact hother .receive h (by decide) rfl rfl (by decide)
    · cases h
  case receive =>
    dsimp only at h
    split at h
    · next hpos =>
      obtain rfl := Option.some.inj h
      exact ⟨rfl, .receives hw rfl hpos rfl⟩
    · cases h
  case testStop =>
    obtain rfl := Option.some.inj h
    exact ⟨rfl, .tests hw rfl rfl⟩
  case pcall =>
    obtain rfl := Option.some.inj h
    exact ⟨rfl, .begins hw rfl rfl⟩
  all_goals exact hother _ h (by decide) rfl rfl (by decide)

theorem Counts.worker {s : CountedTask} (h : s.Counts) {task : LuaTask}
    (ht : s.task.workerStep = some task) :
    Counts ⟨task, s.queued, s.begun + (s.begins .worker).toNat,
      s.afterStop + (s.begins .worker && s.task.stopFlag).toNat, s.stoppedFirst⟩ := by
  obtain ⟨hflag, hmove⟩ := workerStep_cases ht
  have hmessages := h.messages
  cases hmove with
  | receives hw hw' hpos hm =>
    have hno : s.begins .worker = false := by simp [begins, hw]
    have hzero := h.awaits (by rw [hw]; rfl)
    simp only [hno, Bool.false_and, Bool.toNat_false, Nat.add_zero]
    refine ⟨by simp only [hm]; omega, fun _ => by simp only; omega, fun _ => hzero, ?_, ?_,
      h.afterStop, ?_⟩
    · exact fun hrun => h.running (hflag ▸ hrun)
    · intro hc
      simp [hw', WorkerPc.committed] at hc
    · intro hs
      simp only [hw', hflag]
      exact ⟨(h.stopped hs).1, hzero, rfl, rfl⟩
  | tests hw hw' hm =>
    have hno : s.begins .worker = false := by simp [begins, hw]
    have hpos := h.received (by rw [hw]; rfl)
    simp only [hno, Bool.false_and, Bool.toNat_false, Nat.add_zero]
    refine ⟨by simp only [hm]; omega, fun _ => hpos, ?_, ?_, ?_, h.afterStop, ?_⟩
    · intro haw
      simp only [hw'] at haw
      split at haw <;> cases haw
    · exact fun hrun => h.running (hflag ▸ hrun)
    · intro hc
      simp only [hw'] at hc
      -- the flag was found clear
      split at hc
      · cases hc
      · next hclear => exact h.running (by simpa using hclear)
    · intro hs
      obtain ⟨hset, hbegun, -, -⟩ := h.stopped hs
      simp only [hw', hflag, hset, if_true]
      exact ⟨trivial, hbegun, rfl, rfl⟩
  | begins hw hw' hm =>
    have hyes : s.begins .worker = true := by simp [begins, hw]
    have hpos := h.received (by rw [hw]; rfl)
    have hzero := h.committed (by rw [hw]; rfl)
    simp only [hyes, Bool.true_and, Bool.toNat_true]
    refine ⟨by simp only [hm]; omega, fun _ => hpos, ?_, ?_, ?_, ?_, ?_⟩
    · intro haw
      simp [hw', WorkerPc.awaits] at haw
    · intro hrun
      have hrun : s.task.stopFlag = false := hflag ▸ hrun
      simp [hrun, hzero]
    · intro hc
      simp [hw', WorkerPc.committed] at hc
    · have := Bool.toNat_le s.task.stopFlag
      simp only [hzero]
      omega
    · intro hs
      obtain ⟨-, -, hnot, -⟩ := h.stopped hs
      simp [hw, WorkerPc.committed] at hnot
  | other hne haw hc hcalled hm =>
    have hno : s.begins .worker = false := by simp [begins, hne]
    simp only [hno, Bool.false_and, Bool.toNat_false, Nat.add_zero]
    refine ⟨by simp only [hm]; omega, ?_, ?_, ?_, ?_, h.afterStop, ?_⟩
    · exact fun h' => h.received (haw ▸ h')
    · exact fun h' => h.awaits (haw ▸ h')
    · exact fun hrun => h.running (hflag ▸ hrun)
    · exact fun h' => h.committed (hc ▸ h')
    · intro hs
      obtain ⟨hset, hbegun, hnot, hnot'⟩ := h.stopped hs
      refine ⟨hflag ▸ hset, hbegun, hc ▸ hnot, ?_⟩
      by_contra hyes
      rw [hcalled (by simpa using hyes)] at hnot'
      cases hnot'

/-- The ledger says nothing about the counts. -/
theorem Counts.record {t : LuaTask} {queued begun afterStop : Nat} {stoppedFirst : Bool}
    (h : Counts ⟨t, queued, begun, afterStop, stoppedFirst⟩)
    (ledger : Resources.Ledger TaskResource) :
    Counts ⟨{ t with ledger := ledger }, queued, begun, afterStop, stoppedFirst⟩ :=
  ⟨h.messages, h.received, h.awaits, h.running, h.committed, h.afterStop, h.stopped⟩

/-- A step is one of `control`, and the collector takes none. -/
theorem step_eq_some {s s' : CountedTask} {o : TaskOp} (hs : s.step o = some s') :
    ¬ (o = .callGc ∨ o = .collect) ∧ ∃ task ledger, s.task.control o = some task ∧
      s' = ⟨{ task with ledger := ledger }, s.queued + (s.queues o).toNat,
        s.begun + (s.begins o).toNat, s.afterStop + (s.begins o && s.task.stopFlag).toNat,
        s.stoppedFirst || (o == .stop && s.task.worker.awaits)⟩ := by
  unfold CountedTask.step at hs
  split at hs
  · cases hs
  · next hgc =>
    obtain ⟨task', hstep, rfl⟩ := Option.map_eq_some_iff.mp hs
    obtain ⟨task, ht, rfl⟩ := Option.map_eq_some_iff.mp hstep
    exact ⟨hgc, task, _, ht, rfl⟩

theorem Counts.step {s s' : CountedTask} {o : TaskOp} (h : s.Counts) (hs : s.step o = some s') :
    s'.Counts := by
  obtain ⟨hgc, task, ledger, ht, rfl⟩ := step_eq_some hs
  refine Counts.record ?_ _
  have hmessages := h.messages
  cases o with
  | callGc => exact absurd (Or.inl rfl) hgc
  | collect => exact absurd (Or.inr rfl) hgc
  | worker =>
    simp only [LuaTask.control, Option.ite_none_left_eq_some] at ht
    have hqueues : s.queues .worker = false := rfl
    have hstop : (TaskOp.worker == TaskOp.stop) = false := rfl
    simpa [hqueues, hstop] using h.worker ht.2
  | start =>
    obtain ⟨t, hcheck, rfl⟩ := Option.map_eq_some_iff.mp ht
    obtain ⟨-, rfl⟩ := LuaTask.checkTask_eq_some.mp hcheck
    refine h.control rfl ?_ (Nat.le_add_right _ _) id fun hf => Or.inl (by simpa using hf)
    -- a message more where there is a place for it
    cases hq : s.task.hasQueue with
    | true =>
      by_cases hlt : s.task.messages < 10
      · simp [queues, hq, hlt]
        omega
      · simp [queues, hq, hlt]
        omega
    | false => simpa [queues, hq] using hmessages
  | stop =>
    obtain ⟨t, hcheck, rfl⟩ := Option.map_eq_some_iff.mp ht
    obtain ⟨-, rfl⟩ := LuaTask.checkTask_eq_some.mp hcheck
    refine h.control rfl (Nat.le_add_right_of_le hmessages) (Nat.le_add_right _ _)
      (fun hf => by cases hf) fun hf => ?_
    simpa using hf
  | suspend | resume =>
    obtain ⟨t, hcheck, rfl⟩ := Option.map_eq_some_iff.mp ht
    obtain ⟨-, rfl⟩ := LuaTask.checkTask_eq_some.mp hcheck
    exact h.control rfl (Nat.le_add_right_of_le hmessages) (Nat.le_add_right _ _) id
      fun hf => Or.inl (by simpa using hf)

end CountedTask

/-! ## One start message is enough -/

/-- Alike but for the messages in the queue; where these still matter, both have one. -/
structure LuaTask.Alike (t t' : LuaTask) : Prop where
  hasQueue : t.hasQueue = t'.hasQueue
  stopFlag : t.stopFlag = t'.stopFlag
  suspended : t.suspended = t'.suspended
  worker : t.worker = t'.worker
  userdata : t.userdata = t'.userdata
  messages : t.messages = t'.messages ∨
    (t.worker.awaits = true → 0 < t.messages ∧ 0 < t'.messages)

namespace LuaTask.Alike

variable {t t' u : LuaTask}

theorem symm (h : Alike t t') : Alike t' t where
  hasQueue := h.hasQueue.symm
  stopFlag := h.stopFlag.symm
  suspended := h.suspended.symm
  worker := h.worker.symm
  userdata := h.userdata.symm
  messages := by
    rcases h.messages with heq | hpos
    · exact Or.inl heq.symm
    · exact Or.inr fun haw => (hpos (h.worker ▸ haw)).symm

/-- A step to a place where the messages no longer matter, or matter as before. -/
theorem moveTo (h : Alike t t') {w : WorkerPc} (haw : w.awaits = true → t.worker.awaits = true) :
    Alike { t with worker := w } { t' with worker := w } where
  hasQueue := h.hasQueue
  stopFlag := h.stopFlag
  suspended := h.suspended
  worker := rfl
  userdata := h.userdata
  messages := h.messages.imp_right fun hpos hw => hpos (haw hw)

theorem receive_enabled (h : Alike t t') (hw : t.worker = .receive) (hpos : 0 < t.messages) :
    0 < t'.messages := by
  rcases h.messages with heq | hboth
  · exact heq ▸ hpos
  · exact (hboth (by rw [hw]; rfl)).2

theorem workerStep (h : Alike t t') (hs : t.workerStep = some u) :
    ∃ u', t'.workerStep = some u' ∧ Alike u u' := by
  have hmove : ∀ w, some { t with worker := w } = some u →
      (w.awaits = true → t.worker.awaits = true) →
      ∃ u', some { t' with worker := w } = some u' ∧ Alike u u' := by
    intro w hw haw
    obtain rfl := Option.some.inj hw
    exact ⟨_, rfl, h.moveTo haw⟩
  unfold LuaTask.workerStep at hs ⊢
  rw [← h.worker]
  cases hw : t.worker <;> rw [hw] at hs hmove
  case absent => cases hs
  case deleted => cases hs
  case started =>
    dsimp only at hs ⊢
    split at hs
    · next hq =>
      rw [if_pos (h.hasQueue ▸ hq)]
      exact hmove .receive hs fun _ => rfl
    · cases hs
  case receive =>
    dsimp only at hs ⊢
    split at hs
    · next hpos =>
      obtain rfl := Option.some.inj hs
      rw [if_pos (h.receive_enabled hw hpos)]
      exact ⟨_, rfl, ⟨h.hasQueue, h.stopFlag, h.suspended, rfl, h.userdata,
        Or.inr fun haw => by cases haw⟩⟩
    · cases hs
  case testStop =>
    dsimp only at hs ⊢
    have htest : (if t'.stopFlag then WorkerPc.unref else .take) =
        if t.stopFlag then .unref else .take := by rw [h.stopFlag]
    rw [htest]
    refine hmove _ hs ?_
    split <;> exact fun haw => by cases haw
  all_goals exact hmove _ hs fun haw => by cases haw

theorem checkTask (h : Alike t t') (hs : t.checkTask = some u) :
    t = u ∧ t'.checkTask = some t' := by
  obtain ⟨hreach, rfl⟩ := LuaTask.checkTask_eq_some.mp hs
  exact ⟨rfl, LuaTask.checkTask_eq_some.mpr ⟨h.userdata ▸ hreach, rfl⟩⟩

/-- An operation of Lua code with a userdata. -/
theorem checked (h : Alike t t') {f f' : LuaTask → LuaTask} (hf : Alike (f t) (f' t'))
    (hs : t.checkTask.map f = some u) : ∃ u', t'.checkTask.map f' = some u' ∧ Alike u u' := by
  obtain ⟨v, hv, rfl⟩ := Option.map_eq_some_iff.mp hs
  obtain ⟨rfl, hv'⟩ := h.checkTask hv
  exact ⟨f' t', by rw [hv', Option.map_some], hf⟩

theorem control (h : Alike t t') {o : TaskOp} (hs : t.control o = some u) :
    ∃ u', t'.control o = some u' ∧ Alike u u' := by
  have hmess := h.messages
  cases o with
  | start =>
    refine h.checked ⟨h.hasQueue, h.stopFlag, h.suspended, h.worker, h.userdata, ?_⟩ hs
    simp only [← h.hasQueue]
    split
    · rcases hmess with heq | hpos
      · exact Or.inl (by rw [heq])
      · exact Or.inr fun _ => by omega
    · exact hmess
  | stop => exact h.checked ⟨h.hasQueue, rfl, h.suspended, h.worker, h.userdata, hmess⟩ hs
  | suspend => exact h.checked ⟨h.hasQueue, h.stopFlag, rfl, h.worker, h.userdata, hmess⟩ hs
  | resume => exact h.checked ⟨h.hasQueue, h.stopFlag, rfl, h.worker, h.userdata, hmess⟩ hs
  | callGc => exact h.checked ⟨h.hasQueue, rfl, h.suspended, h.worker, h.userdata, hmess⟩ hs
  | collect => exact h.checked ⟨h.hasQueue, rfl, h.suspended, h.worker, rfl, hmess⟩ hs
  | worker =>
    simp only [LuaTask.control, Option.ite_none_left_eq_some] at hs ⊢
    obtain ⟨u', hu', halike⟩ := h.workerStep hs.2
    exact ⟨u', ⟨h.suspended ▸ hs.1, hu'⟩, halike⟩

theorem step (h : Alike t t') {o : TaskOp} (hs : t.step o = some u) :
    ∃ u', t'.step o = some u' ∧ Alike u u' := by
  obtain ⟨v, hv, rfl⟩ := Option.map_eq_some_iff.mp hs
  obtain ⟨v', hv', halike⟩ := h.control hv
  refine ⟨_, Option.map_eq_some_iff.mpr ⟨v', hv', rfl⟩, ?_⟩
  exact ⟨halike.hasQueue, halike.stopFlag, halike.suspended, halike.worker, halike.userdata,
    halike.messages⟩

end LuaTask.Alike

namespace CountedTask

/-- The counts that a start should leave alone. -/
def counts (s : CountedTask) : Nat × Nat × Bool := (s.begun, s.afterStop, s.stoppedFirst)

theorem alike_step {s s' u : CountedTask} (h : s.task.Alike s'.task) (hc : s.counts = s'.counts)
    {o : TaskOp} (hs : s.step o = some u) :
    ∃ u', s'.step o = some u' ∧ u.task.Alike u'.task ∧ u.counts = u'.counts := by
  unfold step at hs ⊢
  split at hs
  · cases hs
  · next hgc =>
    obtain ⟨t, ht, rfl⟩ := Option.map_eq_some_iff.mp hs
    obtain ⟨t', ht', halike⟩ := h.step ht
    rw [if_neg hgc, ht', Option.map_some]
    refine ⟨_, rfl, halike, ?_⟩
    simp only [counts, Prod.mk.injEq] at hc ⊢
    obtain ⟨hb, ha, hf⟩ := hc
    have hbegins : s.begins o = s'.begins o := by rw [begins, begins, h.worker]
    rw [hb, ha, hf, hbegins, h.stopFlag, h.worker]
    exact ⟨rfl, rfl, rfl⟩

theorem alike_foldlM (os : List TaskOp) (s s' : CountedTask) (h : s.task.Alike s'.task)
    (hc : s.counts = s'.counts) :
    (os.foldlM step s).map counts = (os.foldlM step s').map counts := by
  induction os generalizing s s' with
  | nil => exact congrArg some hc
  | cons o os ih =>
    rw [List.foldlM_cons, List.foldlM_cons]
    cases hs : s.step o with
    | none =>
      cases hs' : s'.step o with
      | none => rfl
      | some u' =>
        obtain ⟨u, hu, -⟩ := alike_step h.symm hc.symm hs'
        rw [hs] at hu
        cases hu
    | some u =>
      obtain ⟨u', hu', halike, hcounts⟩ := alike_step h hc hs
      rw [hu']
      exact ih u u' halike hcounts

/-- The userdata is in use, and a worker that was started and waits has a message. -/
theorem run_waits (hasQueue : Bool) (os : List TaskOp) (s : CountedTask)
    (h : (countedTask hasQueue).run os = some s) : s.task.userdata = .reachable ∧
      (.start ∈ os → s.task.hasQueue = true → s.task.worker.awaits = true →
        0 < s.task.messages) := by
  induction os, s, h using Machine.run_induction with
  | init => exact ⟨rfl, fun hmem => absurd hmem List.not_mem_nil⟩
  | step os s₀ o s _ hs ih =>
    obtain ⟨hreach, hwait⟩ := ih
    obtain ⟨hgc, task, ledger, ht, rfl⟩ := step_eq_some hs
    show task.userdata = .reachable ∧ (_ → task.hasQueue = true → task.worker.awaits = true →
      0 < task.messages)
    cases o with
    | callGc => exact absurd (Or.inl rfl) hgc
    | collect => exact absurd (Or.inr rfl) hgc
    | start =>
      obtain ⟨t, hcheck, rfl⟩ := Option.map_eq_some_iff.mp ht
      obtain ⟨-, rfl⟩ := LuaTask.checkTask_eq_some.mp hcheck
      refine ⟨hreach, fun _ hq _ => ?_⟩
      have hq : s₀.task.hasQueue = true := hq
      simp only [hq, if_true]
      omega
    | stop | suspend | resume =>
      obtain ⟨t, hcheck, rfl⟩ := Option.map_eq_some_iff.mp ht
      obtain ⟨-, rfl⟩ := LuaTask.checkTask_eq_some.mp hcheck
      exact ⟨hreach, fun hmem => hwait (by simpa using hmem)⟩
    | worker =>
      simp only [LuaTask.control, Option.ite_none_left_eq_some] at ht
      obtain ⟨-, hmove⟩ := workerStep_cases ht.2
      obtain ⟨hqueue, -, huser, -⟩ := LuaTask.workerStep_frame ht.2
      refine ⟨huser.trans hreach, fun hmem hq haw => ?_⟩
      have hbefore := hwait (by simpa using hmem) (hqueue ▸ hq)
      cases hmove with
      | receives hw hw' hpos hm =>
        rw [hw'] at haw
        cases haw
      | tests hw hw' hm =>
        rw [hw'] at haw
        split at haw <;> cases haw
      | begins hw hw' hm =>
        rw [hw'] at haw
        cases haw
      | other hne haw' hc hcalled hm =>
        rw [hm]
        exact hbefore (haw' ▸ haw)

/-- A start more makes no difference after a start. -/
theorem extra_start (hasQueue : Bool) (l m : List TaskOp) (hl : .start ∈ l) :
    ((countedTask hasQueue).run (l ++ .start :: m)).map counts =
      ((countedTask hasQueue).run (l ++ m)).map counts := by
  unfold Machine.run
  rw [List.foldlM_append, List.foldlM_append]
  cases hs : l.foldlM (countedTask hasQueue).step (countedTask hasQueue).init with
  | none => rfl
  | some s =>
    obtain ⟨hreach, hwait⟩ := run_waits hasQueue l s hs
    show (List.foldlM step s (.start :: m)).map counts = (List.foldlM step s m).map counts
    let task : LuaTask := { s.task with
      messages := if s.task.hasQueue then min 10 (s.task.messages + 1) else s.task.messages
      ledger := s.task.ledger.record (s.task.accesses .start) }
    have hstart : s.step .start = some ⟨task, s.queued + (s.queues .start).toNat, s.begun,
        s.afterStop, s.stoppedFirst⟩ := by
      have hcheck : s.task.checkTask = some s.task := if_pos hreach
      have hstop : (TaskOp.start == TaskOp.stop) = false := rfl
      have hbegins : s.begins .start = false := rfl
      simp [step, LuaTask.step, LuaTask.control, hcheck, hstop, hbegins, task]
    rw [List.foldlM_cons, hstart]
    refine alike_foldlM m _ s ⟨rfl, rfl, rfl, rfl, rfl, ?_⟩ rfl
    show (if s.task.hasQueue then min 10 (s.task.messages + 1) else s.task.messages) =
      s.task.messages ∨ _
    cases hq : s.task.hasQueue with
    | false => exact Or.inl rfl
    | true =>
      refine Or.inr fun haw => ⟨?_, hwait hl hq haw⟩
      show 0 < (if s.task.hasQueue then min 10 (s.task.messages + 1) else s.task.messages)
      rw [hq, if_pos rfl]
      omega

/-- After a start, another one changes none of the counts. -/
def ExtraStartsIdle (hasQueue : Bool) : Prop :=
  ∀ l m, TaskOp.start ∈ l →
    ((countedTask hasQueue).run (l ++ .start :: m)).map counts =
      ((countedTask hasQueue).run (l ++ m)).map counts

end CountedTask

/-- **Stop is final.**  In every interleaving no call begins without a start
message, at most one after the first stop, and none if the stop came before the
worker had its message; and one start message does what many do. -/
theorem stop_is_final (hasQueue : Bool) (os : List TaskOp) :
    (countedTask hasQueue).Always CountedTask.StopIsFinal os ∧
      CountedTask.ExtraStartsIdle hasQueue := by
  constructor
  · exact Machine.always_mono (fun _ h => h.stopIsFinal)
      (Machine.always_of_step (CountedTask.counts_start hasQueue)
        (fun _ _ _ h hs => h.step hs) os)
  · exact fun l m hl => CountedTask.extra_start hasQueue l m hl

end CLIos
