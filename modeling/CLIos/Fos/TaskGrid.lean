import CLIos.Fos.TaskPeriod
import CLIos.Lib.Ticks

/-!
# When the function of a task is called

`lua_task` (components/FOS/fos_task.c) with time: it reads the tick counter once,
and after each call of the Lua function hands its time, `xLastWakeTime`, and the
interval to `vTaskDelayUntil`.  The counter is a `TickType_t`, and so is that time.
`TimedTask` is a task of Fos/Task with both; `now` counts the ticks without wrapping.

A task that is suspended while it sleeps is taken out of the list of delayed
tasks, and `vTaskResume` makes it ready, early or late.
-/

namespace CLIos

open Runs Ticks

/-- The number of values of a `TickType_t`. -/
abbrev TICK_ROUND : Nat := 4294967296

inductive Sleep where
  | awake
  /-- in `vTaskDelayUntil`, for so many ticks -/
  | blocked (ticks : Nat)
  /-- suspended there -/
  | dropped
deriving DecidableEq

/-- One round of the loop: the task was ready, called the function, and slept. -/
structure Round where
  wake : Nat
  call : Nat
  finish : Nat
deriving DecidableEq

structure TimedTask where
  task : LuaTask
  now : Nat
  /-- `xLastWakeTime` -/
  lastWake : Nat
  sleep : Sleep
  /-- when the task read the counter -/
  first : Nat
  /-- the start of this round and of its call -/
  wake : Nat
  call : Nat
  rounds : List Round

inductive TimedEvent where
  | tick
  | op (o : TaskOp)
deriving DecidableEq

namespace TimedTask

def onTick (s : TimedTask) : TimedTask :=
  match s.sleep with
  | .blocked n =>
    if n ≤ 1 then { s with now := s.now + 1, sleep := .awake, wake := s.now + 1 }
    else { s with now := s.now + 1, sleep := .blocked (n - 1) }
  | .awake | .dropped => { s with now := s.now + 1 }

/-- The round is over, whether the task sleeps or not. -/
def endRound (s : TimedTask) (xInterval : Nat) : TimedTask :=
  { s with
    lastWake := (s.lastWake + xInterval) % TICK_ROUND
    rounds := s.rounds ++ [⟨s.wake, s.call, s.now⟩] }

/-- `vTaskDelayUntil(&xLastWakeTime, xInterval)`; an interval of 0 is an assertion. -/
def delayUntil (s : TimedTask) (xInterval : Nat) : Option TimedTask :=
  let seen := s.now % TICK_ROUND
  if xInterval = 0 then none
  else if shouldDelay TICK_ROUND s.lastWake xInterval seen then
    some { s.endRound xInterval with
      sleep := .blocked (ticksToWait TICK_ROUND s.lastWake xInterval seen) }
  else some { s.endRound xInterval with wake := s.now }

/-- The next statement of `lua_task`, with what it does to the times. -/
def onWorker (s : TimedTask) (xInterval : Nat) : Option TimedTask :=
  (s.task.step .worker).bind fun t =>
  let s' := { s with task := t }
  match s.task.worker with
  | .interval => some { s' with lastWake := s.now % TICK_ROUND, first := s.now, wake := s.now }
  | .rawgeti => some { s' with call := s.now }
  | .delayUntil => s'.delayUntil xInterval
  | _ => some s'

/-- `vTaskSuspend` and `vTaskResume` of a task that sleeps. -/
def sleepAfter (s : TimedTask) : TaskOp → Sleep
  | .suspend =>
    match s.sleep with
    | .blocked _ => .dropped
    | sleep => sleep
  | .resume => if s.sleep = .dropped then .awake else s.sleep
  | _ => s.sleep

def onOp (s : TimedTask) (o : TaskOp) : Option TimedTask :=
  (s.task.step o).map fun t =>
  { s with
    task := t
    sleep := s.sleepAfter o
    wake := if o = .resume ∧ s.sleep = .dropped then s.now else s.wake }

def step (xInterval : Nat) (s : TimedTask) : TimedEvent → Option TimedTask
  | .tick => some s.onTick
  | .op o =>
    if o = .worker then
      if s.sleep = .awake then s.onWorker xInterval else none
    else s.onOp o

/-- Just made, at the time `now`. -/
def start (hasQueue : Bool) (now : Nat) : TimedTask where
  task := ⟨hasQueue, 0, false, false, .started, .reachable, false, Resources.Ledger.empty⟩
  now := now
  lastWake := 0
  sleep := .awake
  first := 0
  wake := 0
  call := 0
  rounds := []

end TimedTask

/-- A task that `task.create` has made, with its param block. -/
def timedTask (p : TaskParam) (tickMs now : Nat) : Machine TimedTask TimedEvent where
  init := TimedTask.start p.queue.isSome now
  step := TimedTask.step (p.xInterval tickMs)

/-! ## The grid -/

/-- When a task should be ready after the rounds `pre`: on its grid of times, and
as soon as it can if the last round has ended after that. -/
def release (first xInterval : Nat) (pre : List Round) : Nat :=
  max ((pre.getLast?.map Round.finish).getD first) (first + pre.length * xInterval)

namespace TimedTask

/-- Every round starts when it should, the call is made in it, and so never early. -/
def OnGrid (xInterval : Nat) (s : TimedTask) : Prop :=
  ∀ pre r, pre ++ [r] <+: s.rounds →
    r.wake = release s.first xInterval pre ∧ r.wake ≤ r.call ∧ r.call ≤ r.finish

/-- The next time of the grid. -/
def due (s : TimedTask) (xInterval : Nat) : Nat := s.first + s.rounds.length * xInterval

/-- The task is not suspended while it sleeps, and is never so far behind that
the counter wraps between the time due and `vTaskDelayUntil`. -/
def Undisturbed (xInterval : Nat) (s : TimedTask) : TimedEvent → Prop
  | .op .suspend => s.sleep = .awake
  | .op .worker => s.task.worker = .delayUntil → s.now < s.due xInterval + TICK_ROUND
  | _ => True

instance (xInterval : Nat) (s : TimedTask) (e : TimedEvent) :
    Decidable (Undisturbed xInterval s e) :=
  match e with
  | .op .suspend => inferInstanceAs (Decidable (s.sleep = .awake))
  | .op .worker => inferInstanceAs (Decidable (_ → _))
  | .tick | .op .start | .op .stop | .op .resume | .op .callGc | .op .collect => isTrue trivial

/-! ## The invariant -/

/-- The places before the loop. -/
def before (p : WorkerPc) : Bool :=
  match p with
  | .started | .receive | .interval => true
  | _ => false

/-- The places from the call to the end of the round. -/
def inCall (p : WorkerPc) : Bool :=
  match p with
  | .pcall | .give | .delayUntil => true
  | _ => false

structure Looping (xInterval : Nat) (s : TimedTask) : Prop where
  lastWake : s.lastWake = s.due xInterval % TICK_ROUND
  grid : s.OnGrid xInterval
  finished : ∀ r, s.rounds.getLast? = some r → r.finish ≤ s.now
  first : s.first ≤ s.now
  awake : s.sleep = .awake → s.wake = release s.first xInterval s.rounds ∧ s.wake ≤ s.now
  blocked : ∀ n, s.sleep = .blocked n → 0 < n ∧ s.now + n = s.due xInterval ∧
    s.rounds ≠ [] ∧ inCall s.task.worker = false
  notDropped : s.sleep ≠ .dropped
  call : inCall s.task.worker = true → s.wake ≤ s.call ∧ s.call ≤ s.now

structure Inv (xInterval : Nat) (s : TimedTask) : Prop where
  fresh : before s.task.worker = true → s.rounds = [] ∧ s.sleep = .awake
  looping : before s.task.worker = false → Looping xInterval s

variable {xInterval : Nat} {s s' : TimedTask}

/-! ### Statements of the task -/

theorem control_of_step {t t' : LuaTask} {o : TaskOp} (h : t.step o = some t') :
    ∃ u, t.control o = some u ∧ t'.worker = u.worker := by
  unfold LuaTask.step at h
  obtain ⟨u, hu, rfl⟩ := Option.map_eq_some_iff.mp h
  exact ⟨u, hu, rfl⟩

theorem worker_of_op {t t' : LuaTask} {o : TaskOp} (ho : o ≠ .worker) (h : t.step o = some t') :
    t'.worker = t.worker := by
  obtain ⟨u, hu, hworker⟩ := control_of_step h
  rw [hworker]
  cases o with
  | worker => exact absurd rfl ho
  | start | stop | suspend | resume | callGc | collect =>
    obtain ⟨v, hv, rfl⟩ := Option.map_eq_some_iff.mp hu
    rw [(LuaTask.checkTask_eq_some.mp hv).2]

theorem workerStep_of_step {t t' : LuaTask} (h : t.step .worker = some t') :
    ∃ u, t.workerStep = some u ∧ t'.worker = u.worker := by
  obtain ⟨u, hu, hworker⟩ := control_of_step h
  refine ⟨u, ?_, hworker⟩
  have hu' : (if t.suspended then none else t.workerStep) = some u := hu
  exact (Option.ite_none_left_eq_some.mp hu').2

/-! ### One step -/

/-- A step that changes the task only, and not into a call. -/
theorem Looping.setTask (h : Looping xInterval s) (t : LuaTask)
    (hcall : inCall t.worker = true → inCall s.task.worker = true) :
    Looping xInterval { s with task := t } where
  lastWake := h.lastWake
  grid := h.grid
  finished := h.finished
  first := h.first
  awake := h.awake
  blocked := fun n hn => by
    obtain ⟨hpos, hdue, hrounds, hout⟩ := h.blocked n hn
    refine ⟨hpos, hdue, hrounds, Bool.eq_false_iff.mpr fun hin => ?_⟩
    rw [hcall hin] at hout
    cases hout
  notDropped := h.notDropped
  call := fun hin => h.call (hcall hin)

/-- A round that ended by now does not move the next time of the grid, if that is not past. -/
theorem release_eq_due {first : Nat} {pre : List Round}
    (hfinish : ∀ r, pre.getLast? = some r → r.finish ≤ first + pre.length * xInterval) :
    release first xInterval pre = first + pre.length * xInterval := by
  unfold release
  cases hlast : pre.getLast? with
  | none =>
    show max first _ = _
    omega
  | some r =>
    have := hfinish r hlast
    show max r.finish _ = _
    omega

theorem onTick_awake (h : s.sleep = .awake) : s.onTick = { s with now := s.now + 1 } := by
  unfold onTick
  rw [h]

theorem onTick_due {n : Nat} (h : s.sleep = .blocked n) (hn : n ≤ 1) :
    s.onTick = { s with now := s.now + 1, sleep := .awake, wake := s.now + 1 } := by
  unfold onTick
  rw [h]
  exact if_pos hn

theorem onTick_early {n : Nat} (h : s.sleep = .blocked n) (hn : 1 < n) :
    s.onTick = { s with now := s.now + 1, sleep := .blocked (n - 1) } := by
  unfold onTick
  rw [h]
  exact if_neg (Nat.not_le_of_lt hn)

theorem Looping.onTick (h : Looping xInterval s) : Looping xInterval s.onTick := by
  have hfinished : ∀ r, s.rounds.getLast? = some r → r.finish ≤ s.now + 1 := fun r hr =>
    Nat.le_succ_of_le (h.finished r hr)
  have hfirst : s.first ≤ s.now + 1 := Nat.le_succ_of_le h.first
  cases hs : s.sleep with
  | dropped => exact absurd hs h.notDropped
  | awake =>
    rw [onTick_awake hs]
    exact {
      lastWake := h.lastWake
      grid := h.grid
      finished := hfinished
      first := hfirst
      awake := fun _ => ⟨(h.awake hs).1, Nat.le_succ_of_le (h.awake hs).2⟩
      blocked := fun n hn => by cases hs.symm.trans hn
      notDropped := h.notDropped
      call := fun hin => ⟨(h.call hin).1, Nat.le_succ_of_le (h.call hin).2⟩ }
  | blocked n =>
    obtain ⟨hpos, hdue, hrounds, hout⟩ := h.blocked n hs
    have hcall : ∀ {P : Prop}, inCall s.task.worker = true → P := by
      intro P hin
      rw [hout] at hin
      cases hin
    by_cases hn : n ≤ 1
    · rw [onTick_due hs hn]
      have hnow : s.now + 1 = s.first + s.rounds.length * xInterval := by
        unfold due at hdue
        omega
      have hrelease : s.now + 1 = release s.first xInterval s.rounds := by
        rw [release_eq_due fun r hr => hnow ▸ hfinished r hr, hnow]
      exact {
        lastWake := h.lastWake
        grid := h.grid
        finished := hfinished
        first := hfirst
        awake := fun _ => ⟨hrelease, Nat.le_refl _⟩
        blocked := fun m hm => by cases hm
        notDropped := by rintro ⟨⟩
        call := hcall }
    · rw [onTick_early hs (by omega)]
      have hleft : s.now + 1 + (n - 1) = s.due xInterval := by omega
      exact {
        lastWake := h.lastWake
        grid := h.grid
        finished := hfinished
        first := hfirst
        awake := by rintro ⟨⟩
        blocked := by
          rintro m ⟨⟩
          exact ⟨by omega, hleft, hrounds, hout⟩
        notDropped := by rintro ⟨⟩
        call := hcall }

theorem delayUntil_cases (h : s.delayUntil xInterval = some s') :
    (shouldDelay TICK_ROUND s.lastWake xInterval (s.now % TICK_ROUND) = true ∧
      s' = { s.endRound xInterval with
        sleep := .blocked (ticksToWait TICK_ROUND s.lastWake xInterval (s.now % TICK_ROUND)) }) ∨
    (shouldDelay TICK_ROUND s.lastWake xInterval (s.now % TICK_ROUND) = false ∧
      s' = { s.endRound xInterval with wake := s.now }) := by
  unfold delayUntil at h
  obtain ⟨-, h⟩ := Option.ite_none_left_eq_some.mp h
  by_cases hd : shouldDelay TICK_ROUND s.lastWake xInterval (s.now % TICK_ROUND) = true
  · rw [if_pos hd] at h
    exact .inl ⟨hd, (Option.some.inj h).symm⟩
  · rw [if_neg hd] at h
    exact .inr ⟨Bool.eq_false_iff.mpr hd, (Option.some.inj h).symm⟩

theorem due_endRound : (s.endRound xInterval).due xInterval = s.due xInterval + xInterval := by
  show s.first + (s.rounds ++ [_]).length * xInterval = s.first + s.rounds.length * xInterval + _
  rw [List.length_append, List.length_singleton, Nat.add_mul, Nat.one_mul, Nat.add_assoc]

/-- The time due is not ahead of a round on the grid. -/
theorem Looping.due_le (h : Looping xInterval s) (hawake : s.sleep = .awake)
    (hin : inCall s.task.worker = true) : s.due xInterval ≤ s.now := by
  have hwake := (h.awake hawake).1
  have hdue : s.due xInterval ≤ release s.first xInterval s.rounds := Nat.le_max_right _ _
  have := h.call hin
  omega

theorem Looping.endRound_grid (h : Looping xInterval s) (hawake : s.sleep = .awake)
    (hin : inCall s.task.worker = true) : (s.endRound xInterval).OnGrid xInterval := by
  intro pre r hpre
  rcases concat_prefix_concat.mp hpre with ⟨rfl, rfl⟩ | hpre
  · exact ⟨(h.awake hawake).1, h.call hin⟩
  · exact h.grid pre r hpre

theorem Looping.delayUntil (h : Looping xInterval s) (hw : xInterval < TICK_ROUND)
    (hawake : s.sleep = .awake) (hin : inCall s.task.worker = true)
    (hlate : s.now < s.due xInterval + TICK_ROUND) {t : LuaTask} (hout : inCall t.worker = false)
    (hs : { s with task := t }.delayUntil xInterval = some s') : Looping xInterval s' := by
  have hdue := h.due_le hawake hin
  have hgrid := h.endRound_grid hawake hin
  have hlast : ∀ r, (s.endRound xInterval).rounds.getLast? = some r → r.finish = s.now := by
    intro r hr
    have hr' : (s.rounds ++ [_]).getLast? = some r := hr
    rw [List.getLast?_concat] at hr'
    rw [← Option.some.inj hr']
  have hlastWake : (s.endRound xInterval).lastWake =
      (s.endRound xInterval).due xInterval % TICK_ROUND := by
    show (s.lastWake + xInterval) % TICK_ROUND = _
    rw [due_endRound, h.lastWake, Nat.mod_add_mod]
  have hnotCall : ∀ {P : Prop}, inCall t.worker = true → P := by
    intro P hc
    rw [hout] at hc
    cases hc
  have hshould := shouldDelay_iff hdue hlate hw
  rw [← h.lastWake] at hshould
  rcases delayUntil_cases hs with ⟨hd, rfl⟩ | ⟨hd, rfl⟩
  · -- it sleeps until the next time of the grid
    have hlt := hshould.mp hd
    have hticks := ticksToWait_eq hdue hlt hw
    rw [← h.lastWake] at hticks
    have hsleep : s.now + ticksToWait TICK_ROUND s.lastWake xInterval (s.now % TICK_ROUND) =
        (s.endRound xInterval).due xInterval := by
      rw [hticks, due_endRound]
      omega
    exact {
      lastWake := hlastWake
      grid := hgrid
      finished := fun r hr => Nat.le_of_eq (hlast r hr)
      first := h.first
      awake := by rintro ⟨⟩
      blocked := by
        rintro n ⟨⟩
        refine ⟨?_, hsleep, List.append_ne_nil_of_right_ne_nil _ (List.cons_ne_nil _ _), hout⟩
        show 0 < ticksToWait TICK_ROUND s.lastWake xInterval (s.now % TICK_ROUND)
        omega
      notDropped := by rintro ⟨⟩
      call := hnotCall }
  · -- late: the next round starts at once
    have hge : s.due xInterval + xInterval ≤ s.now :=
      Nat.le_of_not_lt (mt hshould.mpr (Bool.eq_false_iff.mp hd))
    have hrelease : s.now = release s.first xInterval (s.endRound xInterval).rounds := by
      show s.now = max (((s.rounds ++ [_]).getLast?.map Round.finish).getD s.first)
        ((s.endRound xInterval).due xInterval)
      rw [List.getLast?_concat, due_endRound]
      exact (Nat.max_eq_left hge).symm
    exact {
      lastWake := hlastWake
      grid := hgrid
      finished := fun r hr => Nat.le_of_eq (hlast r hr)
      first := h.first
      awake := fun _ => ⟨hrelease, Nat.le_refl _⟩
      blocked := fun n hn => by cases hawake.symm.trans hn
      notDropped := h.notDropped
      call := hnotCall }

theorem onTick_frame (s : TimedTask) : s.onTick.task = s.task ∧ s.onTick.rounds = s.rounds := by
  unfold onTick
  split
  · split <;> exact ⟨rfl, rfl⟩
  · exact ⟨rfl, rfl⟩
  · exact ⟨rfl, rfl⟩

theorem Inv.onTick (h : Inv xInterval s) : Inv xInterval s.onTick := by
  constructor
  · intro hbefore
    rw [(onTick_frame s).1] at hbefore
    obtain ⟨hrounds, hawake⟩ := h.fresh hbefore
    exact ⟨(onTick_frame s).2.trans hrounds, by rw [onTick_awake hawake]; exact hawake⟩
  · intro hbefore
    rw [(onTick_frame s).1] at hbefore
    exact (h.looping hbefore).onTick

theorem Inv.notDropped (h : Inv xInterval s) : s.sleep ≠ .dropped := by
  intro hs
  cases hbefore : before s.task.worker with
  | true => cases hs.symm.trans (h.fresh hbefore).2
  | false => exact (h.looping hbefore).notDropped hs

theorem Inv.onOp (h : Inv xInterval s) {o : TaskOp} (ho : o ≠ .worker)
    (hu : Undisturbed xInterval s (.op o)) (hs : s.onOp o = some s') : Inv xInterval s' := by
  unfold TimedTask.onOp at hs
  obtain ⟨t, ht, rfl⟩ := Option.map_eq_some_iff.mp hs
  have hworker : t.worker = s.task.worker := worker_of_op ho ht
  have hsleep : s.sleepAfter o = s.sleep := by
    cases o with
    | suspend =>
      have hawake : s.sleep = .awake := hu
      simp only [sleepAfter, hawake]
    | resume => exact if_neg h.notDropped
    | start | stop | callGc | collect | worker => rfl
  rw [hsleep, if_neg fun hc => h.notDropped hc.2]
  constructor
  · intro hbefore
    exact h.fresh (hworker ▸ hbefore)
  · intro hbefore
    exact (h.looping (hworker ▸ hbefore)).setTask t fun hin => hworker ▸ hin

/-- The first reading of the counter. -/
theorem Looping.enter {t : LuaTask} (hrounds : s.rounds = []) (hawake : s.sleep = .awake)
    (hout : inCall t.worker = false) : Looping xInterval { s with
      task := t, lastWake := s.now % TICK_ROUND, first := s.now, wake := s.now } where
  lastWake := by
    show s.now % TICK_ROUND = (s.now + s.rounds.length * xInterval) % TICK_ROUND
    rw [hrounds, List.length_nil, Nat.zero_mul, Nat.add_zero]
  grid := fun pre r hpre => by
    have hpre' : pre ++ [r] <+: [] := hrounds ▸ hpre
    exact absurd hpre' (not_concat_prefix_nil pre r)
  finished := fun r hr => by
    have hr' : s.rounds.getLast? = some r := hr
    rw [hrounds] at hr'
    cases hr'
  first := Nat.le_refl _
  awake := fun _ => by
    refine ⟨?_, Nat.le_refl _⟩
    show s.now = release s.now xInterval s.rounds
    rw [hrounds, release_eq_due (fun r hr => by cases hr), List.length_nil, Nat.zero_mul,
      Nat.add_zero]
  blocked := fun n hn => by cases hawake.symm.trans hn
  notDropped := fun hd => by cases hawake.symm.trans hd
  call := fun hin => by
    have hin' : inCall t.worker = true := hin
    rw [hout] at hin'
    cases hin'

/-- The function is called. -/
theorem Looping.call_now (h : Looping xInterval s) (hawake : s.sleep = .awake) (t : LuaTask) :
    Looping xInterval { s with task := t, call := s.now } where
  lastWake := h.lastWake
  grid := h.grid
  finished := h.finished
  first := h.first
  awake := h.awake
  blocked := fun n hn => by cases hawake.symm.trans hn
  notDropped := h.notDropped
  call := fun _ => ⟨(h.awake hawake).2, Nat.le_refl _⟩

/-- The places in and behind the loop: none is before it. -/
theorem Inv.of_looping (hbefore : before s.task.worker = false) (h : Looping xInterval s) :
    Inv xInterval s :=
  ⟨fun hb => absurd (hbefore.symm.trans hb) Bool.false_ne_true, fun _ => h⟩

theorem onWorker_eq {t : LuaTask} (ht : s.task.step .worker = some t) :
    s.onWorker xInterval = match s.task.worker with
      | .interval => some
        { s with task := t, lastWake := s.now % TICK_ROUND, first := s.now, wake := s.now }
      | .rawgeti => some { s with task := t, call := s.now }
      | .delayUntil => { s with task := t }.delayUntil xInterval
      | _ => some { s with task := t } := by
  unfold onWorker
  rw [ht, Option.bind_some]

/-- What a statement in the loop, or behind it, does to the times. -/
theorem onWorker_cases (hbefore : before s.task.worker = false)
    (h : s.onWorker xInterval = some s') : ∃ t, before t.worker = false ∧
      ((s.task.worker = .delayUntil ∧ inCall t.worker = false ∧
          { s with task := t }.delayUntil xInterval = some s') ∨
        (s.task.worker = .rawgeti ∧ s' = { s with task := t, call := s.now }) ∨
        (s.task.worker ≠ .delayUntil ∧ (inCall t.worker = true → inCall s.task.worker = true) ∧
          s' = { s with task := t })) := by
  cases ht : s.task.step .worker with
  | none =>
    unfold onWorker at h
    rw [ht] at h
    cases h
  | some t =>
  refine ⟨t, ?_⟩
  rw [onWorker_eq ht] at h
  obtain ⟨u, hu, hworker⟩ := workerStep_of_step ht
  rw [hworker]
  unfold LuaTask.workerStep at hu
  cases hpc : s.task.worker with
  | started | receive | interval =>
    rw [hpc] at hbefore
    cases hbefore
  | absent | deleted =>
    rw [hpc] at hu
    cases hu
  | rawgeti =>
    rw [hpc] at hu h
    cases hu
    exact ⟨rfl, .inr (.inl ⟨rfl, (Option.some.inj h).symm⟩)⟩
  | delayUntil =>
    rw [hpc] at hu h
    cases hu
    exact ⟨rfl, .inl ⟨rfl, rfl, h⟩⟩
  | testStop =>
    rw [hpc] at hu h
    cases hu
    have hout : ∀ b : Bool, before (if b then WorkerPc.unref else .take) = false ∧
        inCall (if b then WorkerPc.unref else .take) = false := by decide
    exact ⟨(hout _).1, .inr (.inr ⟨by decide,
      fun hin => absurd (hin.symm.trans (hout _).2) (by decide), (Option.some.inj h).symm⟩)⟩
  | pcall | give =>
    rw [hpc] at hu h
    cases hu
    exact ⟨rfl, .inr (.inr ⟨by decide, fun _ => rfl, (Option.some.inj h).symm⟩)⟩
  | take | unref | queueDelete | freeParam | taskDelete =>
    rw [hpc] at hu h
    cases hu
    exact ⟨rfl, .inr (.inr ⟨by decide, (fun hin => nomatch hin), (Option.some.inj h).symm⟩)⟩

theorem delayUntil_task (h : s.delayUntil xInterval = some s') : s'.task = s.task := by
  rcases delayUntil_cases h with ⟨-, rfl⟩ | ⟨-, rfl⟩ <;> rfl

/-- The statements before the loop. -/
theorem Inv.onWorker_before (h : Inv xInterval s) (hbefore : before s.task.worker = true)
    (hs : s.onWorker xInterval = some s') : Inv xInterval s' := by
  obtain ⟨hrounds, hawake⟩ := h.fresh hbefore
  cases ht : s.task.step .worker with
  | none =>
    unfold TimedTask.onWorker at hs
    rw [ht] at hs
    cases hs
  | some t =>
  rw [onWorker_eq ht] at hs
  obtain ⟨u, hu, hworker⟩ := workerStep_of_step ht
  unfold LuaTask.workerStep at hu
  cases hpc : s.task.worker with
  | started | receive =>
    rw [hpc] at hu hs
    obtain ⟨-, hu⟩ := Option.ite_none_right_eq_some.mp hu
    cases hu
    cases hs
    refine ⟨fun _ => ⟨hrounds, hawake⟩, fun hb => ?_⟩
    have hb' : before t.worker = false := hb
    rw [hworker] at hb'
    cases hb'
  | interval =>
    rw [hpc] at hu hs
    cases hu
    cases hs
    exact .of_looping (by show before t.worker = _; rw [hworker]; rfl)
      (.enter hrounds hawake (by rw [hworker]; rfl))
  | absent | testStop | take | rawgeti | pcall | give | delayUntil | unref | queueDelete |
      freeParam | taskDelete | deleted =>
    rw [hpc] at hbefore
    cases hbefore

theorem Inv.onWorker (h : Inv xInterval s) (hw : xInterval < TICK_ROUND) (hawake : s.sleep = .awake)
    (hlate : s.task.worker = .delayUntil → s.now < s.due xInterval + TICK_ROUND)
    (hs : s.onWorker xInterval = some s') : Inv xInterval s' := by
  cases hbefore : before s.task.worker with
  | true => exact h.onWorker_before hbefore hs
  | false =>
    have hloop := h.looping hbefore
    obtain ⟨t, ht, ⟨hpc, hout, hs⟩ | ⟨-, rfl⟩ | ⟨-, hcall, rfl⟩⟩ := onWorker_cases hbefore hs
    · refine .of_looping (by rw [delayUntil_task hs]; exact ht) ?_
      exact hloop.delayUntil hw hawake (by rw [hpc]; rfl) (hlate hpc) hout hs
    · exact .of_looping ht (hloop.call_now hawake t)
    · exact .of_looping ht (hloop.setTask t hcall)

theorem Inv.step (h : Inv xInterval s) (hw : xInterval < TICK_ROUND) {e : TimedEvent}
    (hu : Undisturbed xInterval s e) (hs : s.step xInterval e = some s') : Inv xInterval s' := by
  cases e with
  | tick =>
    obtain rfl := Option.some.inj hs
    exact h.onTick
  | op o =>
    by_cases ho : o = .worker
    · subst ho
      obtain ⟨hawake, hs⟩ := Option.ite_none_right_eq_some.mp hs
      exact h.onWorker hw hawake hu hs
    · have hs' : (if o = .worker then _ else s.onOp o) = some s' := hs
      rw [if_neg ho] at hs'
      exact h.onOp ho hu hs'

theorem Inv.start (xInterval : Nat) (hasQueue : Bool) (now : Nat) :
    Inv xInterval (start hasQueue now) :=
  ⟨fun _ => ⟨rfl, rfl⟩, fun hb => by cases hb⟩

theorem Inv.onGrid (h : Inv xInterval s) : s.OnGrid xInterval := by
  cases hbefore : before s.task.worker with
  | true =>
    intro pre r hpre
    rw [(h.fresh hbefore).1] at hpre
    exact absurd hpre (not_concat_prefix_nil pre r)
  | false => exact (h.looping hbefore).grid

end TimedTask

theorem TaskParam.xInterval_lt (p : TaskParam) (tickMs : Nat) :
    p.xInterval tickMs < TICK_ROUND := by
  have htimer : LuaApi.toUint32 p.timer < TICK_ROUND := by
    unfold LuaApi.toUint32 TICK_ROUND
    omega
  exact Nat.lt_of_le_of_lt (Nat.div_le_self _ _) htimer

/-- **No drift.**  Unless it is suspended while it sleeps, a task is ready for its
function on the times `first + n * xInterval`, or as soon as the last round has ended
when that is later: it is never early, and what a late round costs is made up.  The
counter may wrap, also while the task sleeps. -/
theorem task_keeps_grid (p : TaskParam) (tickMs now : Nat) (es : List TimedEvent)
    (h : (timedTask p tickMs now).Along (TimedTask.Undisturbed (p.xInterval tickMs)) es) :
    (timedTask p tickMs now).Always (TimedTask.OnGrid (p.xInterval tickMs)) es := by
  have hinv : (timedTask p tickMs now).Always (TimedTask.Inv (p.xInterval tickMs)) es :=
    Machine.always_of_along (TimedTask.Inv.start _ _ now)
      (fun _ _ _ hinv hu hs => hinv.step (p.xInterval_lt tickMs) hu hs) es h
  exact Machine.always_mono (fun _ hinv => hinv.onGrid) hinv

/-- One round of a task that is woken after so many ticks, and runs for so many. -/
def oneRound (slept ran : Nat) : List TimedEvent :=
  List.replicate slept .tick ++ List.replicate 4 (.op .worker) ++ List.replicate ran .tick ++
    List.replicate 2 (.op .worker)

/-- Every 100 ms, with ticks of 10 ms, from three ticks before the counter wraps.
The second round takes 13 ticks. -/
theorem task_keeps_grid_wrapped :
    let M := timedTask ⟨0, false, some 80, 100⟩ 10 4294967293
    let es := [.op .start] ++ List.replicate 3 (.op .worker) ++ oneRound 0 1 ++ oneRound 9 13 ++
      oneRound 0 1 ++ oneRound 6 0
    ((M.run es).map fun s => s.rounds.map fun r => r.wake - 4294967293) = some [0, 10, 23, 30] ∧
      M.Always (TimedTask.OnGrid 10) es :=
  ⟨by decide, task_keeps_grid ⟨0, false, some 80, 100⟩ 10 4294967293 _
    (Machine.along_of_check _ _ (by decide))⟩

/-! ## A sleep that is cut short -/

namespace TimedTask

/-- From round `k` on, every round starts when the last one has ended. -/
def BackToBack (k : Nat) (s : TimedTask) : Prop :=
  ∀ pre r r', k ≤ pre.length → pre ++ [r] ++ [r'] <+: s.rounds → r'.wake = r.finish

/-- A round ends within an interval of the one before, and the time due stays
within the counter. -/
def Brisk (xInterval : Nat) (s : TimedTask) (e : TimedEvent) : Prop :=
  e = .op .worker → s.task.worker = .delayUntil →
    s.lastWake + xInterval < TICK_ROUND ∧
      ∀ r ∈ s.rounds.getLast?, s.now ≤ r.finish + xInterval

instance (xInterval : Nat) (s : TimedTask) (e : TimedEvent) : Decidable (Brisk xInterval s e) :=
  inferInstanceAs (Decidable (_ → _ → _ ∧ ∀ r ∈ s.rounds.getLast?, _))

/-- The last round ended more than an interval before the time it was due. -/
structure Ahead (xInterval k : Nat) (s : TimedTask) : Prop where
  inLoop : before s.task.worker = false
  awake : s.sleep = .awake
  backToBack : s.BackToBack k
  ahead : ∃ r, s.rounds.getLast? = some r ∧ s.wake = r.finish ∧ r.finish ≤ s.now ∧
    r.finish % TICK_ROUND + xInterval < s.lastWake

variable {xInterval k : Nat} {s s' : TimedTask}

theorem BackToBack.endRound (h : s.BackToBack k)
    (hwake : ∀ r, s.rounds.getLast? = some r → k < s.rounds.length → s.wake = r.finish) :
    (s.endRound xInterval).BackToBack k := by
  intro pre r r' hk hpre
  rcases concat_prefix_concat.mp hpre with ⟨hrounds, rfl⟩ | hpre
  · refine hwake r ?_ ?_
    · rw [← hrounds, List.getLast?_concat]
    · rw [← hrounds, List.length_append, List.length_singleton]
      omega
  · exact h pre r r' hk hpre

/-- A round that ends before the time due is followed by the next at once. -/
theorem ahead_of_delayUntil (hbb : (s.endRound xInterval).BackToBack k) (hawake : s.sleep = .awake)
    (hseen : s.now % TICK_ROUND < s.lastWake) (hwrap : s.lastWake + xInterval < TICK_ROUND)
    {t : LuaTask} (ht : before t.worker = false)
    (hs : { s with task := t }.delayUntil xInterval = some s') :
    Ahead xInterval k s' := by
  have hnot : shouldDelay TICK_ROUND s.lastWake xInterval (s.now % TICK_ROUND) = false :=
    not_shouldDelay_of_lt hseen hwrap
  rcases delayUntil_cases hs with ⟨hd, -⟩ | ⟨-, rfl⟩
  · exact absurd (hnot.symm.trans hd) Bool.false_ne_true
  · refine ⟨ht, hawake, hbb, ⟨s.wake, s.call, s.now⟩, List.getLast?_concat, rfl,
      Nat.le_refl _, ?_⟩
    show s.now % TICK_ROUND + xInterval < (s.lastWake + xInterval) % TICK_ROUND
    rw [Nat.mod_eq_of_lt hwrap]
    omega

theorem Ahead.seen (h : Ahead xInterval k s) (hwrap : s.lastWake + xInterval < TICK_ROUND)
    (hbrisk : ∀ r ∈ s.rounds.getLast?, s.now ≤ r.finish + xInterval) :
    s.now % TICK_ROUND < s.lastWake := by
  obtain ⟨r, hlast, -, hle, hahead⟩ := h.ahead
  have hsoon := hbrisk r hlast
  obtain ⟨d, hd⟩ := Nat.exists_eq_add_of_le hle
  have hsmall : r.finish % TICK_ROUND + d < TICK_ROUND := by omega
  rw [hd, ← Nat.mod_add_mod, Nat.mod_eq_of_lt hsmall]
  omega

theorem Ahead.step (h : Ahead xInterval k s) {e : TimedEvent} (hbrisk : Brisk xInterval s e)
    (hs : s.step xInterval e = some s') : Ahead xInterval k s' := by
  obtain ⟨r, hlast, hwake, hle, hahead⟩ := h.ahead
  cases e with
  | tick =>
    obtain rfl := Option.some.inj hs
    rw [onTick_awake h.awake]
    exact ⟨h.inLoop, h.awake, h.backToBack, r, hlast, hwake, Nat.le_succ_of_le hle, hahead⟩
  | op o =>
    by_cases ho : o = .worker
    · subst ho
      obtain ⟨-, hs⟩ := Option.ite_none_right_eq_some.mp hs
      obtain ⟨t, ht, ⟨hpc, -, hs⟩ | ⟨-, rfl⟩ | ⟨-, -, rfl⟩⟩ := onWorker_cases h.inLoop hs
      · obtain ⟨hwrap, hsoon⟩ := hbrisk rfl hpc
        have hbb : (s.endRound xInterval).BackToBack k := h.backToBack.endRound fun r' hr' _ => by
          obtain rfl := Option.some.inj (hr'.symm.trans hlast)
          exact hwake
        exact ahead_of_delayUntil hbb h.awake (h.seen hwrap hsoon) hwrap ht hs
      · exact ⟨ht, h.awake, h.backToBack, r, hlast, hwake, hle, hahead⟩
      · exact ⟨ht, h.awake, h.backToBack, r, hlast, hwake, hle, hahead⟩
    · have hs' : (if o = .worker then _ else s.onOp o) = some s' := hs
      rw [if_neg ho] at hs'
      obtain ⟨t, ht, rfl⟩ := Option.map_eq_some_iff.mp hs'
      have hdropped : s.sleep ≠ .dropped := by rw [h.awake]; decide
      have hsleep : s.sleepAfter o = .awake := by
        cases o with
        | suspend => simp only [sleepAfter, h.awake]
        | resume => exact (if_neg hdropped).trans h.awake
        | start | stop | callGc | collect | worker => exact h.awake
      rw [hsleep, if_neg fun hc => hdropped hc.2]
      exact ⟨(worker_of_op ho ht) ▸ h.inLoop, rfl, h.backToBack, r, hlast, hwake, hle, hahead⟩

end TimedTask

/-- **Suspended in its sleep.**  A task that comes to `vTaskDelayUntil` before the
time it was due, as one does that was suspended while it slept and was resumed, does not
sleep again as long as its rounds are shorter than the interval and the time due, which
each round moves further ahead, does not wrap: each call is made at once after the last. -/
theorem task_spins (p : TaskParam) (tickMs now : Nat) (s : TimedTask) (es : List TimedEvent)
    (hpc : s.task.worker = .delayUntil) (hawake : s.sleep = .awake)
    (hseen : s.now % TICK_ROUND < s.lastWake)
    (h : ((timedTask p tickMs now).restart s).Along
      (TimedTask.Brisk (p.xInterval tickMs)) (.op .worker :: es)) :
    ((timedTask p tickMs now).restart s).Always
      (fun t => t.sleep = .awake ∧ t.BackToBack s.rounds.length) (.op .worker :: es) := by
  have hnone : s.BackToBack s.rounds.length := by
    intro pre r r' hk hpre
    have := hpre.length_le
    simp only [List.length_append, List.length_singleton] at this
    omega
  refine Machine.always_cons _ _ _ ⟨hawake, hnone⟩ fun s' hs' => ?_
  obtain ⟨hfirst, hrest⟩ := Machine.of_along_cons h hs'
  have hahead : TimedTask.Ahead (p.xInterval tickMs) s.rounds.length s' := by
    obtain ⟨-, hs⟩ := Option.ite_none_right_eq_some.mp hs'
    have hloop : TimedTask.before s.task.worker = false := by
      rw [hpc]
      rfl
    obtain ⟨t, ht, ⟨-, -, hs⟩ | ⟨hother, -⟩ | ⟨hother, -⟩⟩ := TimedTask.onWorker_cases hloop hs
    · refine TimedTask.ahead_of_delayUntil ?_ hawake hseen (hfirst rfl hpc).1 ht hs
      exact hnone.endRound fun r hr hk => absurd hk (Nat.lt_irrefl _)
    · cases hpc.symm.trans hother
    · exact absurd hpc hother
  have hinv := Machine.always_of_along (M := ((timedTask p tickMs now).restart s).restart s')
    hahead (fun _ _ _ hinv hbrisk hs => TimedTask.Ahead.step hinv hbrisk hs) es hrest
  exact Machine.always_mono (fun _ hinv => ⟨hinv.awake, hinv.backToBack⟩) hinv

/-- Suspended and resumed three ticks after the start, seven before it was due. -/
theorem task_spins_resumed :
    let M := timedTask ⟨0, false, some 80, 100⟩ 10 0
    let es := oneRound 0 2 ++ oneRound 0 1
    ∃ s, M.run ([.op .start] ++ List.replicate 3 (.op .worker) ++ oneRound 0 1 ++
        List.replicate 2 .tick ++ [.op .suspend, .op .resume] ++
        List.replicate 5 (.op .worker)) = some s ∧
      (M.restart s).Always (fun t => t.sleep = .awake ∧ t.BackToBack 1) (.op .worker :: es) ∧
      (((M.restart s).run (.op .worker :: es)).map fun t => t.rounds.map Round.wake) =
        some [0, 3, 3, 5] :=
  ⟨_, rfl, task_spins ⟨0, false, some 80, 100⟩ 10 0 _ _ rfl rfl (by decide)
    (Machine.along_of_check _ _ (by decide)), by decide⟩

end CLIos
