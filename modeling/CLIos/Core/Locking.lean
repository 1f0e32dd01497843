import CLIos.Lib.Lock

/-!
# Who uses the Lua state, and who locks it

The tasks that share the one `lua_State`: `app_main` and `_HandleLuaCommand`
(main/Core_Level.c), the workers `lua_task` of `task.create`
(components/FOS/fos_task.c) and the server threads that run
`lua_httpd_generic_handler` (components/NET/net_httpd.c).  A `TaskPoint` is a
place in their code; every run of calls into the Lua API without other code in
between is one `call`.  Workers and servers are started by Lua code, so any call
that runs some (`luaL_dofile`, `lua_pcall`) may spawn any number of them.
`_ShellTask` does not use the state.
-/

namespace CLIos

open Locking Runs

inductive TaskPoint where
  -- app_main
  /-- `luaL_newstate`, `luaL_openlibs`, `_API_BINDING_C` -/
  | openLibs
  | takeBoot
  | statBoot
  | doFile
  /-- `lua_tostring` and `lua_pop` after an error in boot.lua -/
  | bootError
  | giveBoot
  | createShell
  | createLua
  | mainReturned
  -- _HandleLuaCommand
  | setHook
  | waitLine
  | loadBuffer
  | pcallLine
  | runtimeError
  /-- `lua_tostring` of the loader's message -/
  | loadError
  /-- `lua_settop` and the second `luaL_loadbuffer` -/
  | reload
  /-- `lua_pop` before `continue` -/
  | popWaiting
  /-- `lua_pop` after a syntax error -/
  | popSyntax
  | clearHook
  -- lua_task
  | receive
  | testStop
  | takeWorker
  | rawgeti
  | pcallWorker
  | workerError
  | giveWorker
  | delayUntil
  | unref
  /-- `vQueueDelete`, `free`, `vTaskDelete` -/
  | cleanUp
  | workerDeleted
  -- lua_httpd_generic_handler
  | waitRequest
  /-- `lua_getfield` of the table of callbacks, `lua_isnil` -/
  | getTable
  | popNil
  /-- `lua_getfield` of the key, `lua_isfunction` -/
  | getCallback
  | popBoth
  | pushUri
  | pcallHandler
  | handlerError
  /-- `luaL_checkinteger`, `luaL_checklstring` -/
  | results
  | sendBody
  | popResults
deriving DecidableEq

namespace TaskPoint

def op : TaskPoint → Op TaskPoint
  | takeBoot | takeWorker => .take
  | giveBoot | giveWorker => .give
  | createLua => .create setHook
  | statBoot | createShell | mainReturned | waitLine | receive | testStop | delayUntil
  | cleanUp | workerDeleted | waitRequest | sendBody => .pass
  | _ => .call

def next : TaskPoint → List TaskPoint
  | openLibs => [takeBoot]
  | takeBoot => [statBoot]
  | statBoot => [doFile, giveBoot]
  | doFile => [bootError, giveBoot]
  | bootError => [giveBoot]
  | giveBoot => [createShell]
  | createShell => [createLua]
  | createLua => [mainReturned]
  | mainReturned => []
  | setHook => [waitLine]
  | waitLine => [loadBuffer]
  | loadBuffer => [pcallLine, loadError]
  | pcallLine => [runtimeError, clearHook]
  | runtimeError => [waitLine]
  | loadError => [popWaiting, reload, popSyntax]
  | reload => [popWaiting, popSyntax]
  | popWaiting => [waitLine]
  | popSyntax => [clearHook]
  | clearHook => [waitLine]
  | receive => [testStop, unref]
  | testStop => [takeWorker, unref]
  | takeWorker => [rawgeti]
  | rawgeti => [pcallWorker]
  | pcallWorker => [workerError, giveWorker]
  | workerError => [giveWorker]
  | giveWorker => [delayUntil]
  | delayUntil => [testStop]
  | unref => [cleanUp]
  | cleanUp => [workerDeleted]
  | workerDeleted => []
  | waitRequest => [getTable]
  | getTable => [popNil, getCallback]
  | popNil => [waitRequest]
  | getCallback => [popBoth, pushUri]
  | popBoth => [waitRequest]
  | pushUri => [pcallHandler]
  | pcallHandler => [handlerError, results]
  | handlerError => [waitRequest]
  | results => [sendBody]
  | sendBody => [popResults]
  | popResults => [waitRequest]

/-- The calls that run Lua code: it can call `task.create` and `httpd.start`. -/
def spawns : TaskPoint → List TaskPoint
  | doFile | pcallLine | pcallWorker | pcallHandler => [receive, waitRequest]
  | _ => []

/-- The points between a take of `luaMutex` and its give. -/
def locked : TaskPoint → Bool
  | statBoot | doFile | bootError | giveBoot => true
  | rawgeti | pcallWorker | workerError | giveWorker => true
  | _ => false

/-- The calls made without the mutex once there can be several tasks: those of
`_HandleLuaCommand` and of the handler, and the worker's `luaL_unref`. -/
def bare (p : TaskPoint) : Bool :=
  !p.locked && p ≠ openLibs

end TaskPoint

def luaTasks : Code TaskPoint where
  start := .openLibs
  op := TaskPoint.op
  next := TaskPoint.next
  spawns := TaskPoint.spawns

/-- A task enters only if no section without the mutex overlaps: neither its own
with another task's nor another task's with its own. -/
def Unshared (s : System TaskPoint) : Event TaskPoint → Prop
  | .enter t => ∀ (u : Nat) (a b : Thread TaskPoint), s.threads[t]? = some a →
      s.threads[u]? = some b → u ≠ t → b.inside = true →
        a.point.bare = false ∧ b.point.bare = false
  | _ => True

theorem luaTasks_discipline : Discipline luaTasks TaskPoint.locked where
  start := rfl
  take := by intro p; cases p <;> decide
  give := by intro p; cases p <;> decide
  call := by intro p; cases p <;> decide
  pass := by intro p; cases p <;> decide
  create := by
    intro p r h
    cases p <;> cases h
    decide
  spawns := by intro p; cases p <;> decide

theorem luaTasks_initial : Initial luaTasks where
  next := by intro p; cases p <;> decide
  spawns := by intro p; cases p <;> decide
  create := by
    intro p r h
    cases p <;> cases h
    decide
  spawnsNone := rfl

theorem TaskPoint.bare_eq_false_iff (p : TaskPoint) :
    p.bare = false ↔ p.locked = true ∨ p = .openLibs := by
  cases p <;> decide

/-- **Exclusion on the Lua state.**  At most one task is inside the Lua API in
exactly the runs in which no section without the mutex overlaps another task's
section; those under the mutex, boot included, exclude each other. -/
theorem lua_exclusive_iff (es : List (Event TaskPoint)) :
    luaTasks.machine.Always System.Exclusive es ↔ luaTasks.machine.Along Unshared es := by
  apply (exclusive_iff luaTasks_discipline es).trans
  apply Machine.along_iff_along (I := Alone luaTasks)
  · exact alone_init
  intro s e s' hI h
  have hs := Code.stepped h
  refine ⟨?_, fun _ => hI.step luaTasks_initial hs⟩
  cases hs with
  | enter t p hth hop =>
    constructor
    · intro hq u a b ha hu hne hb
      obtain ⟨hga, hgb⟩ := hq u a b ha hu hne hb
      exact ⟨a.point.bare_eq_false_iff.mpr (Or.inl hga),
        b.point.bare_eq_false_iff.mpr (Or.inl hgb)⟩
    · intro hq u a b ha hu hne hb
      obtain ⟨hna, hnb⟩ := hq u a b ha hu hne hb
      have hga := a.point.bare_eq_false_iff.mp hna
      have hgb := b.point.bare_eq_false_iff.mp hnb
      exact ⟨hga.resolve_right (hI.point_ne ha hu hne),
        hgb.resolve_right (hI.point_ne hu ha (Ne.symm hne))⟩
  | _ => exact Iff.rfl

/-- A worker started by boot.lua makes its call under the mutex while
`_HandleLuaCommand`, which never takes it, sets its hook. -/
theorem lua_shared :
    ¬ ∀ es, luaTasks.machine.Always System.Exclusive es := by
  intro h
  have hrun : ∃ s, luaTasks.machine.run [.enter 0, .leave 0 .takeBoot, .move 0 .statBoot,
      .move 0 .doFile, .enter 0, .spawn 0 .receive, .leave 0 .giveBoot, .move 0 .createShell,
      .move 0 .createLua, .move 0 .mainReturned, .move 1 .testStop, .move 1 .takeWorker,
      .move 1 .rawgeti, .enter 1, .enter 2] = some s ∧
        s.threads[1]? = some ⟨.rawgeti, true⟩ ∧ s.threads[2]? = some ⟨.setHook, true⟩ :=
    ⟨_, rfl, rfl, rfl⟩
  obtain ⟨s, hs, h₁, h₂⟩ := hrun
  have heq : 1 = 2 := h _ _ s List.prefix_rfl hs 1 2 _ _ h₁ h₂ rfl rfl
  omega

end CLIos
