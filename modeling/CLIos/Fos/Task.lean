import CLIos.Lib.Ledger
import CLIos.Lib.Machine

/-!
# Tasks made by Lua code

The task library (components/FOS/fos_task.c).  `task.create` makes a param
block with a queue and a registry reference to the function, a worker that runs
`lua_task` and a userdata that holds a pointer to the block.  Two parties
release the three: the worker on its way out, one step for each, and
`L_TASK_GC`, which runs when the userdata is collected, or when Lua code calls
`__gc` on it (the metatable is its own `__index`).  The userdata keeps its
pointer when the worker has gone, and the worker its when the userdata has.

`accesses` lists which of the three a step uses or releases, in order; the
ledger of the task records them.  A read of a released block gives the value it
last held.  `luaMutex` is left out: it says nothing about the three.
-/

namespace CLIos

open Resources Runs

inductive TaskResource where
  | param
  | queue
  | ref
deriving DecidableEq

/-- The statement of `lua_task` that comes next. -/
inductive WorkerPc where
  /-- `xTaskCreate` failed -/
  | absent
  /-- `param->L`, and the call of `xQueueReceive` -/
  | started
  /-- inside `xQueueReceive` with `portMAX_DELAY` -/
  | receive
  | interval
  | testStop
  | take
  | rawgeti
  | pcall
  | give
  | delayUntil
  | unref
  | queueDelete
  | freeParam
  | taskDelete
  | deleted
deriving DecidableEq

inductive Userdata where
  | absent
  | reachable
  | collected
deriving DecidableEq

structure LuaTask where
  /-- `param->queue` is not NULL -/
  hasQueue : Bool
  messages : Nat
  stopFlag : Bool
  suspended : Bool
  worker : WorkerPc
  userdata : Userdata
  /-- `L_TASK_GC` has run -/
  finalized : Bool
  ledger : Ledger TaskResource

inductive TaskOp where
  | start
  | stop
  | suspend
  | resume
  /-- `t:__gc()` in Lua code -/
  | callGc
  /-- `__gc` by the garbage collector -/
  | collect
  /-- a step of the worker -/
  | worker
deriving DecidableEq

inductive TaskEvent where
  /-- `hasQueue` and `spawned` tell what `xQueueCreate` and `xTaskCreate` return -/
  | create (hasQueue spawned : Bool)
  | op (k : Nat) (o : TaskOp)

def WorkerPc.accesses : WorkerPc → List (Access TaskResource)
  | .started => [.touch .param, .touch .queue]
  | .receive => [.touch .queue]
  | .interval | .testStop => [.touch .param]
  | .rawgeti => [.touch .param, .touch .ref]
  | .unref => [.touch .param, .release .ref]
  | .queueDelete => [.touch .param, .release .queue]
  | .freeParam => [.release .param]
  | .absent | .take | .pcall | .give | .delayUntil | .taskDelete | .deleted => []

namespace LuaTask

/-- `L_TASK_CREATE`.  Without a worker it deletes the queue and frees the block
at once (`vQueueDelete` of NULL is an assertion); the reference stays. -/
def create (hasQueue spawned : Bool) : Option LuaTask :=
  if spawned then
    some ⟨hasQueue, 0, false, false, .started, .reachable, false, Ledger.empty⟩
  else if hasQueue then
    some ⟨true, 0, false, false, .absent, .absent, false,
      Ledger.empty.record [.release .queue, .release .param]⟩
  else none

def accesses (t : LuaTask) : TaskOp → List (Access TaskResource)
  | .start => if t.hasQueue then [.touch .param, .touch .queue] else [.touch .param]
  | .stop | .suspend | .resume => [.touch .param]
  | .callGc | .collect =>
    if t.hasQueue then
      [.touch .param, .release .queue, .touch .param, .release .ref, .release .param]
    else [.touch .param, .touch .param, .release .ref, .release .param]
  | .worker => t.worker.accesses

/-- The next statement of `lua_task`. -/
def workerStep (t : LuaTask) : Option LuaTask :=
  match t.worker with
  | .absent | .deleted => none
  | .started => if t.hasQueue then some { t with worker := .receive } else none
  | .receive =>
    if 0 < t.messages then some { t with worker := .interval, messages := t.messages - 1 }
    else none
  | .interval => some { t with worker := .testStop }
  | .testStop => some { t with worker := if t.stopFlag then .unref else .take }
  | .take => some { t with worker := .rawgeti }
  | .rawgeti => some { t with worker := .pcall }
  | .pcall => some { t with worker := .give }
  | .give => some { t with worker := .delayUntil }
  | .delayUntil => some { t with worker := .testStop }
  | .unref => some { t with worker := .queueDelete }
  | .queueDelete => some { t with worker := .freeParam }
  | .freeParam => some { t with worker := .taskDelete }
  | .taskDelete => some { t with worker := .deleted }

/-- A step of the worker changes its place and the number of messages at most. -/
theorem workerStep_frame {t t' : LuaTask} (h : t.workerStep = some t') :
    t'.hasQueue = t.hasQueue ∧ t'.finalized = t.finalized ∧ t'.userdata = t.userdata ∧
      t'.suspended = t.suspended := by
  unfold workerStep at h
  split at h <;> (try split at h) <;> cases h <;> exact ⟨rfl, rfl, rfl, rfl⟩

/-- `check_task`: the operation is called with a userdata. -/
def checkTask (t : LuaTask) : Option LuaTask :=
  if t.userdata = .reachable then some t else none

theorem checkTask_eq_some {t t' : LuaTask} :
    t.checkTask = some t' ↔ t.userdata = .reachable ∧ t = t' := by
  unfold checkTask
  rw [Option.ite_none_right_eq_some, Option.some.injEq]

/-- What a step does besides its accesses. -/
def control (t : LuaTask) : TaskOp → Option LuaTask
  | .start => t.checkTask.map fun t =>
    { t with messages := if t.hasQueue then min 10 (t.messages + 1) else t.messages }
  | .stop => t.checkTask.map fun t => { t with stopFlag := true }
  | .suspend => t.checkTask.map fun t => { t with suspended := true }
  | .resume => t.checkTask.map fun t => { t with suspended := false }
  | .callGc => t.checkTask.map fun t => { t with stopFlag := true, finalized := true }
  | .collect => t.checkTask.map fun t =>
    { t with stopFlag := true, finalized := true, userdata := .collected }
  | .worker => if t.suspended then none else t.workerStep

def step (t : LuaTask) (o : TaskOp) : Option LuaTask :=
  (t.control o).map fun t' => { t' with ledger := t.ledger.record (t.accesses o) }

end LuaTask

def taskStep (s : List LuaTask) : TaskEvent → Option (List LuaTask)
  | .create hasQueue spawned => (LuaTask.create hasQueue spawned).map fun t => s ++ [t]
  | .op k o => s[k]?.bind fun t => (t.step o).map fun t' => s.set k t'

def luaTaskLib : Machine (List LuaTask) TaskEvent where
  init := []
  step := taskStep

end CLIos
