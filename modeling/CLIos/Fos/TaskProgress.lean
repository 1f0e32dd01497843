import CLIos.Fos.TaskOwnership
import CLIos.Fos.TaskStop
import CLIos.Lib.Fair

/-!
# From the start of a task to its end

What must happen to a task whose userdata is in use (`countedTask`).  The worker
is fair if it moves again whenever its next statement can be taken: it is not
left suspended, is given `luaMutex`, and its function returns.  A worker that has
a start message and is never stopped calls its function again and again.  One
that has neither to wait for its message nor to go on ends, and releases what it
has; one that never had a message waits for it for ever, stopped or not.
-/

namespace CLIos

open Resources Runs

/-- The statements after the loop. -/
def WorkerPc.leaving : WorkerPc → Bool
  | .unref | .queueDelete | .freeParam | .taskDelete | .deleted => true
  | _ => false

/-- The steps of the worker. -/
def TaskOp.ofWorker (o : TaskOp) : Option Unit := if o = .worker then some () else none

/-- The statement after this one. -/
def WorkerPc.next (stopFlag : Bool) : WorkerPc → WorkerPc
  | .started => .receive
  | .receive => .interval
  | .interval | .delayUntil => .testStop
  | .testStop => if stopFlag then .unref else .take
  | .take => .rawgeti
  | .rawgeti => .pcall
  | .pcall => .give
  | .give => .delayUntil
  | .unref => .queueDelete
  | .queueDelete => .freeParam
  | .freeParam => .taskDelete
  | .taskDelete | .deleted => .deleted
  | .absent => .absent

namespace CountedTask

theorem workerStep_next {t u : LuaTask} (h : t.workerStep = some u) :
    u.worker = t.worker.next t.stopFlag ∧ t.worker ≠ .absent ∧ t.worker ≠ .deleted := by
  unfold LuaTask.workerStep at h
  cases hw : t.worker <;> simp only [hw] at h
  case absent | deleted => cases h
  case started | receive =>
    split at h
    · cases h
      exact ⟨rfl, WorkerPc.noConfusion, WorkerPc.noConfusion⟩
    · cases h
  all_goals
    cases h
    exact ⟨rfl, WorkerPc.noConfusion, WorkerPc.noConfusion⟩

/-- The next statement can be taken, when the task is resumed. -/
def WorkerTurn (s : CountedTask) (_ : Unit) : Prop := s.task.workerStep.isSome = true

/-- What holds in every run. -/
structure Going (s : CountedTask) : Prop where
  place : s.task.worker ≠ .absent
  queue : 0 < s.queued → s.task.hasQueue = true
  /-- until the worker takes one, all messages are in the queue -/
  waits : s.task.worker.awaits = true → s.task.messages = s.queued ∧ s.task.messages ≤ 10
  received : s.task.worker.awaits = false → 0 < s.queued
  leaving : s.task.worker.leaving = true → s.task.stopFlag = true
  released : ∀ r, s.task.ledger.releases r = (!s.task.worker.keeps r).toNat

theorem going_start (hasQueue : Bool) : (start hasQueue).Going where
  place := WorkerPc.noConfusion
  queue := fun h => absurd h (Nat.lt_irrefl 0)
  waits := fun _ => ⟨rfl, Nat.zero_le _⟩
  received := by
    intro h
    cases h
  leaving := by
    intro h
    cases h
  released := by
    intro r
    cases r <;> rfl

/-- An operation of Lua code leaves the worker where it is and releases nothing. -/
theorem Going.control {s : CountedTask} (h : s.Going) {u : LuaTask} {o : TaskOp}
    (ho : o = .start ∨ o = .stop ∨ o = .suspend ∨ o = .resume) (hc : s.task.control o = some u)
    {begun afterStop : Nat} {stoppedFirst : Bool} :
    Going ⟨{ u with ledger := s.task.ledger.record (s.task.accesses o) },
      s.queued + (s.queues o).toNat, begun, afterStop, stoppedFirst⟩ := by
  have hw : o ≠ .worker := by rcases ho with rfl | rfl | rfl | rfl <;> decide
  obtain ⟨-, -, hplace, hqueue, -⟩ := LuaTask.control_op hc hw
  have hreleases : ∀ r, (s.task.accesses o).count (.release r) = 0 := by
    intro r
    rcases ho with rfl | rfl | rfl | rfl
    · cases hq : s.task.hasQueue <;> simp [LuaTask.accesses, hq]
    all_goals simp [LuaTask.accesses]
  have hqueues : s.queues o = true → s.task.hasQueue = true := by
    intro hq
    simp only [queues, Bool.and_eq_true] at hq
    exact hq.1.2
  have hcheck : ∀ f : LuaTask → LuaTask, s.task.checkTask.map f = some u → u = f s.task := by
    intro f hf
    obtain ⟨v, hv, rfl⟩ := Option.map_eq_some_iff.mp hf
    obtain ⟨-, rfl⟩ := LuaTask.checkTask_eq_some.mp hv
    rfl
  refine ⟨hplace ▸ h.place, ?_, ?_, ?_, ?_, ?_⟩
  · intro hpos
    show u.hasQueue = true
    rw [hqueue]
    cases hq : s.queues o with
    | true => exact hqueues hq
    | false => exact h.queue (by simpa [hq] using hpos)
  · intro haw
    obtain ⟨hsame, hle⟩ := h.waits (hplace ▸ haw)
    rcases ho with rfl | rfl | rfl | rfl
    · obtain rfl := hcheck _ hc
      cases hq : s.task.hasQueue with
      | true =>
        by_cases hlt : s.task.messages < 10
        · simp [queues, hq, hlt]
          omega
        · simp [queues, hq, hlt]
          omega
      | false => simpa [queues, hq] using ⟨hsame, hle⟩
    all_goals
      obtain rfl := hcheck _ hc
      simpa [queues] using ⟨hsame, hle⟩
  · intro haw
    exact Nat.lt_of_lt_of_le (h.received (hplace ▸ haw)) (Nat.le_add_right _ _)
  · intro hl
    have hstop := h.leaving (hplace ▸ hl)
    rcases ho with rfl | rfl | rfl | rfl
    all_goals
      obtain rfl := hcheck _ hc
      first | exact hstop | rfl
  · intro r
    show (s.task.ledger.record _).releases r = (!u.worker.keeps r).toNat
    rw [Ledger.releases_record, hreleases, Nat.add_zero, h.released, hplace]

/-- The worker leaves the loop where it finds `stop_flag` set. -/
theorem leaving_of_workerStep {t u : LuaTask} (h : t.workerStep = some u)
    (hl : u.worker.leaving = true) : t.worker.leaving = true ∨ t.stopFlag = true := by
  rw [(workerStep_next h).1] at hl
  cases hw : t.worker <;> rw [hw] at hl <;> first | exact Or.inl rfl | cases hl | skip
  cases hstop : t.stopFlag with
  | true => exact Or.inr rfl
  | false =>
    rw [hstop] at hl
    cases hl

theorem Going.worker {s : CountedTask} (h : s.Going) {u : LuaTask}
    (hu : s.task.workerStep = some u) {begun afterStop : Nat} {stoppedFirst : Bool} :
    Going ⟨{ u with ledger := s.task.ledger.record s.task.worker.accesses }, s.queued, begun,
      afterStop, stoppedFirst⟩ := by
  obtain ⟨hqueue, -, -, -⟩ := LuaTask.workerStep_frame hu
  obtain ⟨hflag, hmove⟩ := workerStep_cases hu
  have hwaits : u.worker.awaits = true → s.task.worker.awaits = true ∧
      u.messages = s.task.messages := by
    intro haw
    cases hmove with
    | receives hw hw' => simp [hw', WorkerPc.awaits] at haw
    | tests hw hw' =>
      rw [hw'] at haw
      split at haw <;> cases haw
    | begins hw hw' => simp [hw', WorkerPc.awaits] at haw
    | other hne haw' hc hcalled hm => exact ⟨haw' ▸ haw, hm⟩
  refine ⟨(LuaTask.workerStep_place hu).1, fun hpos => hqueue.trans (h.queue hpos), ?_, ?_, ?_, ?_⟩
  · intro haw
    obtain ⟨hbefore, hm⟩ := hwaits haw
    show u.messages = s.queued ∧ u.messages ≤ 10
    rw [hm]
    exact h.waits hbefore
  · intro haw
    cases hmove with
    | receives hw hw' hpos hm =>
      have hsame := (h.waits (by rw [hw]; rfl)).1
      show 0 < s.queued
      omega
    | tests hw => exact h.received (by rw [hw]; rfl)
    | begins hw => exact h.received (by rw [hw]; rfl)
    | other hne haw' => exact h.received (haw' ▸ haw)
  · intro hl
    show u.stopFlag = true
    rw [hflag]
    exact (leaving_of_workerStep hu hl).elim h.leaving id
  · intro r
    show (s.task.ledger.record _).releases r = (!u.worker.keeps r).toNat
    rw [Ledger.releases_record, h.released]
    exact LuaTask.workerStep_keeps hu r

theorem Going.step {s s' : CountedTask} {o : TaskOp} (h : s.Going) (hs : s.step o = some s') :
    s'.Going := by
  unfold CountedTask.step at hs
  split at hs
  · cases hs
  · next hgc =>
    obtain ⟨t, ht, rfl⟩ := Option.map_eq_some_iff.mp hs
    obtain ⟨u, hu, rfl⟩ := LuaTask.step_eq_some ht
    cases o with
    | callGc => exact absurd (Or.inl rfl) hgc
    | collect => exact absurd (Or.inr rfl) hgc
    | worker => exact h.worker (LuaTask.control_worker hu).1
    | start => exact h.control (Or.inl rfl) hu
    | stop => exact h.control (Or.inr (Or.inl rfl)) hu
    | suspend => exact h.control (Or.inr (Or.inr (Or.inl rfl))) hu
    | resume => exact h.control (Or.inr (Or.inr (Or.inr rfl))) hu

/-! ## A stopped task ends -/

/-- The statements left to a stopped worker. -/
def stepsToEnd : WorkerPc → Nat
  | .take => 10
  | .rawgeti => 9
  | .pcall | .started => 8
  | .give | .receive => 7
  | .delayUntil | .interval => 6
  | .testStop => 5
  | .unref => 4
  | .queueDelete => 3
  | .freeParam => 2
  | .taskDelete => 1
  | .absent | .deleted => 0

/-- The statements until the next call, while nobody stops the task. -/
def stepsToCall : WorkerPc → Nat
  | .give | .started => 7
  | .delayUntil | .receive => 6
  | .interval => 5
  | .testStop => 4
  | .take => 3
  | .rawgeti => 2
  | .pcall => 1
  | .absent | .unref | .queueDelete | .freeParam | .taskDelete | .deleted => 0

theorem stepsToEnd_lt {t u : LuaTask} (h : t.workerStep = some u) (hstop : t.stopFlag = true) :
    stepsToEnd u.worker < stepsToEnd t.worker := by
  obtain ⟨hnext, habsent, hdeleted⟩ := workerStep_next h
  rw [hnext, hstop]
  cases hw : t.worker <;> first | exact absurd hw habsent | exact absurd hw hdeleted | decide

theorem stepsToCall_lt {t u : LuaTask} (h : t.workerStep = some u) (hstop : t.stopFlag = false)
    (hcall : t.worker ≠ .pcall) (hstay : t.worker.leaving = false) :
    stepsToCall u.worker < stepsToCall t.worker := by
  obtain ⟨hnext, habsent, -⟩ := workerStep_next h
  rw [hnext, hstop]
  cases hw : t.worker <;> rw [hw] at hstay <;>
    first
      | exact absurd hw habsent
      | exact absurd hw hcall
      | exact absurd hstay (by decide)
      | decide

/-- A worker with a message, or past it, has a next statement until it has ended. -/
theorem Going.turn {s : CountedTask} (h : s.Going) (hpos : 0 < s.queued)
    (hnot : s.task.worker ≠ .deleted) : s.WorkerTurn () := by
  have hqueue := h.queue hpos
  unfold WorkerTurn LuaTask.workerStep
  cases hw : s.task.worker with
  | absent => exact absurd hw h.place
  | deleted => exact absurd hw hnot
  | started => simp [hqueue]
  | receive =>
    have hm := (h.waits (by rw [hw]; rfl)).1
    have h0 : 0 < s.task.messages := by omega
    simp [h0]
  | _ => rfl

/-- What a step does to the counts, the flag and the place of the worker. -/
structure Moves (s : CountedTask) (o : TaskOp) (s' : CountedTask) : Prop where
  queued : s.queued ≤ s'.queued
  begun : s'.begun = s.begun + (s.begins o).toNat
  stop : s'.task.stopFlag = (s.task.stopFlag || o == .stop)
  others : o ≠ .worker → s'.task.worker = s.task.worker
  worker : o = .worker → ∃ u, s.task.workerStep = some u ∧ s'.task.worker = u.worker

theorem moves {s s' : CountedTask} {o : TaskOp} (hs : s.step o = some s') : s.Moves o s' := by
  obtain ⟨hgc, task, ledger, ht, rfl⟩ := step_eq_some hs
  refine ⟨Nat.le_add_right _ _, rfl, ?_, fun hw => (LuaTask.control_op ht hw).2.2.1, ?_⟩
  · show task.stopFlag = _
    cases o with
    | callGc => exact absurd (Or.inl rfl) hgc
    | collect => exact absurd (Or.inr rfl) hgc
    | worker =>
      rw [(workerStep_cases (LuaTask.control_worker ht).1).1]
      exact (Bool.or_false _).symm
    | start | stop | suspend | resume =>
      obtain ⟨t, hcheck, rfl⟩ := Option.map_eq_some_iff.mp ht
      obtain ⟨-, rfl⟩ := LuaTask.checkTask_eq_some.mp hcheck
      simp
  · rintro rfl
    exact ⟨task, (LuaTask.control_worker ht).1, rfl⟩

theorem ofWorker_eq {o : TaskOp} (h : o ≠ .worker) : o.ofWorker ≠ some () := by
  rw [TaskOp.ofWorker, if_neg h]
  exact (Option.some_ne_none ()).symm

def endRanking (hasQueue : Bool) : Ranking (countedTask hasQueue) (fun _ _ => True)
    TaskOp.ofWorker WorkerTurn
    (fun s => s.Going ∧ 0 < s.queued ∧ s.task.stopFlag = true)
    (fun s => s.task.worker = .deleted) Nat where
  rank s := stepsToEnd s.task.worker
  helper _ := ()
  keeps := by
    rintro s o s' ⟨hgoing, hpos, hstop⟩ - - hs
    have hm := moves hs
    refine Or.inr ⟨hgoing.step hs, Nat.lt_of_lt_of_le hpos hm.queued, ?_⟩
    rw [hm.stop, hstop, Bool.true_or]
  helps := fun _ h hnot => h.1.turn h.2.1 hnot
  lowers := by
    rintro s o s' ⟨-, -, hstop⟩ - - hs
    have hm := moves hs
    by_cases hw : o = .worker
    · obtain ⟨u, hu, hplace⟩ := hm.worker hw
      rw [hplace]
      exact Or.inr (Or.inl (stepsToEnd_lt hu hstop))
    · rw [hm.others hw]
      exact Or.inr (Or.inr ⟨rfl, rfl, ofWorker_eq hw⟩)

def callRanking (hasQueue : Bool) (k : Nat) : Ranking (countedTask hasQueue)
    (fun _ o => o ≠ .stop) TaskOp.ofWorker WorkerTurn
    (fun s => s.Going ∧ 0 < s.queued ∧ s.task.stopFlag = false ∧ k ≤ s.begun)
    (fun s => k < s.begun) Nat where
  rank s := stepsToCall s.task.worker
  helper _ := ()
  keeps := by
    rintro s o s' ⟨hgoing, hpos, hrun, hk⟩ - hne hs
    have hm := moves hs
    refine Or.inr ⟨hgoing.step hs, Nat.lt_of_lt_of_le hpos hm.queued, ?_, ?_⟩
    · rw [hm.stop, hrun, Bool.false_or]
      exact beq_eq_false_iff_ne.mpr hne
    · rw [hm.begun]
      exact hk.trans (Nat.le_add_right _ _)
  helps := by
    rintro s ⟨hgoing, hpos, hrun, -⟩ -
    refine hgoing.turn hpos fun hdeleted => ?_
    have hstop := hgoing.leaving (by rw [hdeleted]; rfl)
    rw [hrun] at hstop
    cases hstop
  lowers := by
    rintro s o s' ⟨hgoing, -, hrun, hk⟩ - - hs
    have hm := moves hs
    by_cases hw : o = .worker
    · obtain ⟨u, hu, hplace⟩ := hm.worker hw
      by_cases hcall : s.task.worker = .pcall
      · left
        have hbegins : s.begins o = true := by simp [begins, hw, hcall]
        rw [hm.begun, hbegins]
        exact Nat.lt_succ_of_le hk
      · have hstay : s.task.worker.leaving = false := by
          by_contra hl
          have hstop := hgoing.leaving (by simpa using hl)
          rw [hrun] at hstop
          cases hstop
        rw [hplace]
        exact Or.inr (Or.inl (stepsToCall_lt hu hrun hcall hstay))
    · rw [hm.others hw]
      exact Or.inr (Or.inr ⟨rfl, rfl, ofWorker_eq hw⟩)

/-! ## In an execution -/

section

variable {hasQueue : Bool} (E : Execution (countedTask hasQueue))

theorem along_true : E.Along fun _ _ => True := fun _ _ _ => trivial

theorem going (n : Nat) : (E.state n).Going := by
  have hstart : (E.state 0).Going := by
    rw [E.start]
    exact going_start hasQueue
  exact Execution.always_from (along_true E) (fun _ _ _ h _ hs => h.step hs) hstart n (Nat.zero_le n)

theorem queued_mono (m : Nat) : ∀ n, m ≤ n → (E.state m).queued ≤ (E.state n).queued :=
  Execution.always_from (I := fun s => (E.state m).queued ≤ s.queued) (along_true E)
    (fun _ _ _ h _ hs => h.trans (moves hs).queued) (Nat.le_refl _)

theorem begun_mono (m : Nat) : ∀ n, m ≤ n → (E.state m).begun ≤ (E.state n).begun := by
  refine Execution.always_from (I := fun s => (E.state m).begun ≤ s.begun) (along_true E)
    (fun s o s' h _ hs => ?_) (Nat.le_refl _)
  rw [(moves hs).begun]
  exact h.trans (Nat.le_add_right _ _)

theorem stopFlag_stays {m : Nat} (hstop : (E.state m).task.stopFlag = true) :
    ∀ n, m ≤ n → (E.state n).task.stopFlag = true := by
  refine Execution.always_from (I := fun s => s.task.stopFlag = true) (along_true E)
    (fun s o s' h _ hs => ?_) hstop
  rw [(moves hs).stop, h, Bool.true_or]

variable {E}

theorem ends_of_stop (hfair : E.Fair TaskOp.ofWorker WorkerTurn) {m n : Nat}
    (hm : 0 < (E.state m).queued) (hn : (E.state n).task.stopFlag = true) :
    ∃ l, (E.state l).task.worker = .deleted := by
  have hpos := Nat.lt_of_lt_of_le hm (queued_mono E m _ (Nat.le_max_left m n))
  have hstop := stopFlag_stays E hn _ (Nat.le_max_right m n)
  obtain ⟨l, -, hl⟩ := (endRanking hasQueue).reaches (along_true E) hfair ⟨going E _, hpos, hstop⟩
  exact ⟨l, hl⟩

/-- One call more than `k`, at some moment. -/
theorem calls_of_run (hfair : E.Fair TaskOp.ofWorker WorkerTurn) {m : Nat}
    (hm : 0 < (E.state m).queued) (hrun : ∀ n, (E.state n).task.stopFlag = false) (k : Nat) :
    ∃ n, k ≤ (E.state n).begun := by
  have hne : E.Along fun _ o => o ≠ .stop := by
    rintro n o ho rfl
    have hstop := (moves (E.next n _ ho)).stop
    rw [hrun] at hstop
    simp at hstop
  induction k with
  | zero => exact ⟨m, Nat.zero_le _⟩
  | succ k ih =>
    obtain ⟨n, hn⟩ := ih
    have hpos := Nat.lt_of_lt_of_le hm (queued_mono E m _ (Nat.le_max_left m n))
    have hbegun := hn.trans (begun_mono E n _ (Nat.le_max_right m n))
    obtain ⟨l, -, hl⟩ := (callRanking hasQueue k).reaches hne hfair
      ⟨going E _, hpos, hrun _, hbegun⟩
    exact ⟨l, hl⟩

/-- A worker that has no message has released nothing. -/
theorem Going.kept {s : CountedTask} (h : s.Going) (hnone : s.queued = 0) (r : TaskResource) :
    s.task.ledger.releases r = 0 := by
  have hawaits : s.task.worker.awaits = true := by
    by_contra haw
    have hpos := h.received (by simpa using haw)
    omega
  rw [h.released r]
  cases hw : s.task.worker <;> rw [hw] at hawaits <;>
    first | exact absurd hawaits (by decide) | (cases r <;> rfl)

end

/-- The life of a task: it ends if it had a start message and was stopped, and
has then released the block, the queue and the reference; without a message it
keeps them for ever; with one and not stopped it calls its function for ever. -/
structure Lives {hasQueue : Bool} (E : Execution (countedTask hasQueue)) : Prop where
  ends : (∃ n, (E.state n).task.worker = .deleted) ↔
    (∃ n, 0 < (E.state n).queued) ∧ ∃ n, (E.state n).task.stopFlag = true
  released : ∀ n, (E.state n).task.worker = .deleted →
    ∀ r, (E.state n).task.ledger.releases r = 1
  kept : (∀ n, (E.state n).queued = 0) → ∀ n r, (E.state n).task.ledger.releases r = 0
  calls : (∃ n, 0 < (E.state n).queued) → (∀ n, (E.state n).task.stopFlag = false) →
    ∀ k, ∃ n, k ≤ (E.state n).begun

end CountedTask

/-- **Start and stop are obeyed.**  In every execution in which the worker moves
again whenever it can, the task begins and ends as it is told. -/
theorem task_lives (hasQueue : Bool) (E : Execution (countedTask hasQueue))
    (hfair : E.Fair TaskOp.ofWorker CountedTask.WorkerTurn) : CountedTask.Lives E := by
  refine ⟨⟨?_, ?_⟩, ?_, ?_, ?_⟩
  · rintro ⟨n, hn⟩
    have hgoing := CountedTask.going E n
    exact ⟨⟨n, hgoing.received (by rw [hn]; rfl)⟩, n, hgoing.leaving (by rw [hn]; rfl)⟩
  · rintro ⟨⟨m, hm⟩, n, hn⟩
    exact CountedTask.ends_of_stop hfair hm hn
  · intro n hn r
    rw [(CountedTask.going E n).released r, hn]
    cases r <;> rfl
  · exact fun hnone n r => (CountedTask.going E n).kept (hnone n) r
  · rintro ⟨m, hm⟩ hrun k
    exact CountedTask.calls_of_run hfair hm hrun k

/-- One call, and a stop while the function runs. -/
def taskOnce : List TaskOp :=
  .start :: List.replicate 7 .worker ++ .stop :: List.replicate 7 .worker

theorem task_lives_once : ∃ E : Execution (countedTask true),
    (∀ n, E.label n = taskOnce[n]?) ∧ CountedTask.Lives E := by
  have hrun : ∃ s, (countedTask true).run taskOnce = some s ∧ s.task.worker = .deleted :=
    ⟨_, rfl, rfl⟩
  obtain ⟨s, hs, hw⟩ := hrun
  have hend : ∀ k, ¬ s.WorkerTurn k := by
    intro k hturn
    simp [CountedTask.WorkerTurn, LuaTask.workerStep, hw] at hturn
  exact ⟨Execution.ofRun taskOnce s hs, fun _ => rfl,
    task_lives true _ (Execution.ofRun_fair hs hend)⟩

end CLIos
