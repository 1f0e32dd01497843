import CLIos.Lib.Rtos
import CLIos.Lib.LuaApi
import CLIos.Lib.Lock
import CLIos.Fos.TaskOwnership

/-!
# What Lua code waits for while it holds `luaMutex`

The queue, mutex and semaphore libraries (components/FOS/fos_queue.c,
fos_mutex.c, fos_semaphore.c) together with the task library, as calls made by
Lua code.  A worker runs Lua inside `lua_pcall`, and there it holds `luaMutex`;
`app_main` holds it while it runs boot.lua; `_HandleLuaCommand` and the server
threads run Lua without it.  `queue.send`, `queue.receive`, `mutex.lock` and
`semaphore.take` wait with `portMAX_DELAY`, and none of them gives `luaMutex`
before.

An object is named by the order of its creation.  A handle of the wrong kind has
no defined effect.
-/

namespace CLIos

open LuaApi Rtos Runs

/-- Who runs Lua code. -/
inductive Caller where
  | worker (k : Nat)
  /-- `app_main` -/
  | main
  /-- `_HandleLuaCommand` or a server thread -/
  | other (n : Nat)
deriving DecidableEq

inductive Waiting where
  /-- with `portMAX_DELAY` on the object `id` -/
  | forever (id : Nat) (r : Request Int)
  /-- in `vTaskDelay` -/
  | delay
deriving DecidableEq

structure Fos where
  tasks : List LuaTask
  objects : List (Object Caller Int)
  luaMutex : Option Caller
  waiting : Caller → Option Waiting
  /-- the integers that `queue.receive` has pushed, with the caller -/
  received : List (Caller × Int)

/-- A call of the libraries; `made` tells whether the kernel had the memory. -/
inductive FosCall where
  | taskCreate (hasQueue spawned : Bool)
  | task (k : Nat) (o : TaskOp)
  | taskDelay
  | queueCreate (length : Int) (made : Bool)
  | queueSend (id : Nat) (val : Int)
  | queueReceive (id : Nat)
  | mutexCreate (made : Bool)
  | mutexLock (id : Nat)
  | mutexUnlock (id : Nat)
  | semCreate (count : Int) (made : Bool)
  | semTake (id : Nat)
  | semGive (id : Nat)

inductive FosEvent where
  /-- Lua code run by `c` makes a call -/
  | call (c : Caller) (f : FosCall)
  /-- what `c` waits for is there, or its delay is over -/
  | wake (c : Caller)
  /-- the next statement of `lua_task` -/
  | worker (k : Nat)
  /-- `app_main` gives `luaMutex` after boot.lua -/
  | giveBoot

namespace Fos

def setWaiting (s : Fos) (c : Caller) (w : Option Waiting) : Fos :=
  { s with waiting := fun c' => if c' = c then w else s.waiting c' }

/-- `c` is at a place where Lua code runs, and is not kept from running it. -/
def running (s : Fos) (c : Caller) : Bool :=
  (s.waiting c).isNone &&
    match c with
    | .worker k => s.tasks[k]?.any fun t => t.worker = .pcall && !t.suspended
    | .main => s.luaMutex = some .main
    | .other _ => true

/-! ## The libraries -/

/-- The request is done: the object is changed, and a value goes to Lua. -/
def finish (s : Fos) (c : Caller) (id : Nat) (o : Object Caller Int) (v : Option Int) : Fos :=
  { s with
    objects := s.objects.set id o
    received := s.received ++ (v.map fun v => (c, v)).toList }

/-- A call on the object `id`. -/
def serve (s : Fos) (c : Caller) (id : Nat) (r : Request Int) : Option Fos :=
  s.objects[id]?.bind fun o =>
  match o.serve c r with
  | .done o' v => some (s.finish c id o' v)
  | .wait => some (s.setWaiting c (some (.forever id r)))
  | .refused => none

/-- A new object; a length or a maximal count of 0 is an assertion. -/
def create (s : Fos) (size : Nat) (made : Bool) (o : Object Caller Int) : Option Fos :=
  if size = 0 then none
  else if made then some { s with objects := s.objects ++ [o] }
  else some s

def lQueueCreate (s : Fos) (length : Int) (made : Bool) : Option Fos :=
  s.create (toUint32 (toInt length)) made (.queue (toUint32 (toInt length)) [])

def lQueueSend (s : Fos) (c : Caller) (id : Nat) (val : Int) : Option Fos :=
  s.serve c id (.send (toInt val))

def lQueueReceive (s : Fos) (c : Caller) (id : Nat) : Option Fos := s.serve c id .receive

def lMutexCreate (s : Fos) (made : Bool) : Option Fos := s.create 1 made (.mutex none)

def lMutexLock (s : Fos) (c : Caller) (id : Nat) : Option Fos := s.serve c id .lock

def lMutexUnlock (s : Fos) (c : Caller) (id : Nat) : Option Fos := s.serve c id .unlock

/-- The counter starts at 0; `count` is its maximum. -/
def lSemCreate (s : Fos) (count : Int) (made : Bool) : Option Fos :=
  s.create (toUint32 (toInt count)) made (.semaphore (toUint32 (toInt count)) 0)

def lSemTake (s : Fos) (c : Caller) (id : Nat) : Option Fos := s.serve c id .take

def lSemGive (s : Fos) (c : Caller) (id : Nat) : Option Fos := s.serve c id .give

def lTaskDelay (s : Fos) (c : Caller) : Option Fos := some (s.setWaiting c (some .delay))

/-- The event of the task library, alone. -/
def taskEvent (s : Fos) (e : TaskEvent) : Option Fos :=
  (taskStep s.tasks e).map fun tasks => { s with tasks := tasks }

def onCall (s : Fos) (c : Caller) : FosCall → Option Fos
  | .taskCreate hasQueue spawned => s.taskEvent (.create hasQueue spawned)
  | .task k o => if o = .worker then none else s.taskEvent (.op k o)
  | .taskDelay => s.lTaskDelay c
  | .queueCreate length made => s.lQueueCreate length made
  | .queueSend id val => s.lQueueSend c id val
  | .queueReceive id => s.lQueueReceive c id
  | .mutexCreate made => s.lMutexCreate made
  | .mutexLock id => s.lMutexLock c id
  | .mutexUnlock id => s.lMutexUnlock c id
  | .semCreate count made => s.lSemCreate count made
  | .semTake id => s.lSemTake c id
  | .semGive id => s.lSemGive c id

/-! ## The tasks -/

def suspended (s : Fos) : Caller → Bool
  | .worker k => s.tasks[k]?.any fun t => t.suspended
  | _ => false

/-- A waiting task tries again, and goes on if it need not wait this time. -/
def onWake (s : Fos) (c : Caller) : Option Fos :=
  if s.suspended c then none
  else
    match s.waiting c with
    | none => none
    | some .delay => some (s.setWaiting c none)
    | some (.forever id r) =>
      s.objects[id]?.bind fun o =>
      match o.serve c r with
      | .done o' v => some ((s.setWaiting c none).finish c id o' v)
      | .wait | .refused => none

/-- `luaMutex` after the statement that worker `k` executes at `p`. -/
def mutexAfter (s : Fos) (k : Nat) : WorkerPc → Option (Option Caller)
  | .take => if s.luaMutex = none then some (some (.worker k)) else none
  | .give => if s.luaMutex = some (.worker k) then some none else none
  | _ => some s.luaMutex

/-- The worker leaves `lua_pcall` only when its Lua code waits for nothing. -/
def onWorker (s : Fos) (k : Nat) : Option Fos :=
  s.tasks[k]?.bind fun t =>
  if s.waiting (.worker k) = none then
    (s.mutexAfter k t.worker).bind fun m =>
    (s.taskEvent (.op k .worker)).map fun s => { s with luaMutex := m }
  else none

def step (s : Fos) : FosEvent → Option Fos
  | .call c f => if s.running c then s.onCall c f else none
  | .wake c => s.onWake c
  | .worker k => s.onWorker k
  | .giveBoot =>
    if s.luaMutex = some .main ∧ s.waiting .main = none then some { s with luaMutex := none }
    else none

/-- `app_main` has taken `luaMutex` and runs boot.lua. -/
def boot : Fos := ⟨[], [], some .main, fun _ => none, []⟩

end Fos

def fos : Machine Fos FosEvent where
  init := Fos.boot
  step := Fos.step

end CLIos
