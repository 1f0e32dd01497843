import CLIos.Fos.Task
import CLIos.Lib.LuaApi

/-!
# A task.create that fails

`LuaTask.create` (Fos/Task) tells what a task is made of; here `L_TASK_CREATE`
is followed through its three acquisitions after the reference, each of which
may fail: `malloc`, `xQueueCreate` and `xTaskCreate` (components/FOS/fos_task.c).
Only the result of the last is looked at.  A store through NULL and
`vQueueDelete` of NULL, which is an assertion, have no defined effect.
-/

namespace CLIos

open LuaApi

/-- The arguments: a message if one of the `luaL_` functions rejects them, and
the optional ones as far as they are given. -/
structure CreateArgs where
  badArgument : Option String
  stackSize : Option Int
  priority : Option Int
  name : Option (List Char)
  timer : Option Int

/-- What the calls answer that `L_TASK_CREATE` makes; `ref` is the key that
`luaL_ref` picks. -/
structure CreateTurn where
  ref : Nat
  block : Option Nat
  queue : Option Nat
  spawned : Bool

/-- `lua_task_param_t` -/
structure TaskParam where
  funcRef : Nat
  stopFlag : Bool
  queue : Option Nat
  timer : Int

/-- A task of `lua_task`, as `xTaskCreate` makes it. -/
structure TaskWorker where
  name : List Char
  stackDepth : Nat
  param : Nat
  priority : Nat

structure TaskHeap where
  refs : List Nat
  queues : List Nat
  blocks : List (Nat × TaskParam)
  workers : List TaskWorker

inductive CreateAnswer where
  | raised (msg : String)
  | nil
  | userdata (param : Nat)
deriving DecidableEq

/-- `_timer`, with 100 for 0. -/
def CreateArgs.timerMs (a : CreateArgs) : Int :=
  let timer := toInt (a.timer.getD 100)
  if timer = 0 then 100 else timer

namespace TaskHeap

def vQueueDelete (h : TaskHeap) : Option Nat → Option TaskHeap
  | none => none
  | some q => some { h with queues := h.queues.erase q }

def free (h : TaskHeap) (addr : Nat) : TaskHeap :=
  { h with blocks := h.blocks.eraseP fun b => b.1 == addr }

/-- `L_TASK_CREATE` -/
def lTaskCreate (h : TaskHeap) (a : CreateArgs) (t : CreateTurn) :
    Option (TaskHeap × CreateAnswer) :=
  match a.badArgument with
  | some msg => some (h, .raised msg)
  | none =>
    let h := { h with refs := t.ref :: h.refs }
    t.block.bind fun param =>
    let h := { h with
      queues := t.queue.toList ++ h.queues
      blocks := (param, ⟨t.ref, false, t.queue, a.timerMs⟩) :: h.blocks }
    if t.spawned then
      -- `sizeof(StackType_t)` is 1
      some ({ h with workers := ⟨a.name.getD "Task".toList, toUint32 (toInt (a.stackSize.getD 2048)),
        param, toUint8 (a.priority.getD 1)⟩ :: h.workers }, .userdata param)
    else (h.vQueueDelete t.queue).map fun h => (h.free param, .nil)

end TaskHeap

def CreateTurn.Fails (t : CreateTurn) : Prop :=
  t.block = none ∨ t.queue = none ∨ t.spawned = false

/-- A worker has been added, with its block, queue and reference in place. -/
def Started (h h' : TaskHeap) (r : CreateAnswer) : Prop :=
  ∃ w p q, h'.workers = w :: h.workers ∧ r = .userdata w.param ∧
    (w.param, p) ∈ h'.blocks ∧ p.queue = some q ∧ q ∈ h'.queues ∧ p.funcRef ∈ h'.refs

/-- A call with a failure answers nil or raises an error and changes nothing; one
without starts a worker. -/
def CreateClean (h : TaskHeap) (a : CreateArgs) (t : CreateTurn) : Prop :=
  ∃ h' r, h.lTaskCreate a t = some (h', r) ∧
    (t.Fails → (r = .nil ∨ ∃ msg, r = .raised msg) ∧ h' = h) ∧
    (¬ t.Fails → a.badArgument = none → Started h h' r)

variable {h : TaskHeap} {a : CreateArgs} {t : CreateTurn}

theorem lTaskCreate_bad {msg : String} (ha : a.badArgument = some msg) :
    h.lTaskCreate a t = some (h, .raised msg) := by
  unfold TaskHeap.lTaskCreate
  rw [ha]

theorem lTaskCreate_noBlock (ha : a.badArgument = none) (hb : t.block = none) :
    h.lTaskCreate a t = none := by
  unfold TaskHeap.lTaskCreate
  rw [ha, hb]
  rfl

/-- Whether a worker is started depends on `xTaskCreate` alone. -/
theorem lTaskCreate_spawned (ha : a.badArgument = none) {param : Nat} (hb : t.block = some param)
    (hs : t.spawned = true) : ∃ h' w, h.lTaskCreate a t = some (h', .userdata param) ∧
      h'.workers = w :: h.workers ∧ w.param = param ∧ h'.refs = t.ref :: h.refs ∧
      h'.queues = t.queue.toList ++ h.queues ∧
      h'.blocks = (param, ⟨t.ref, false, t.queue, a.timerMs⟩) :: h.blocks := by
  unfold TaskHeap.lTaskCreate
  rw [ha, hb]
  simp only [Option.bind_some, hs, if_true]
  exact ⟨_, _, rfl, rfl, rfl, rfl, rfl, rfl⟩

theorem lTaskCreate_noTask_noQueue (ha : a.badArgument = none) {param : Nat}
    (hb : t.block = some param) (hq : t.queue = none) (hs : t.spawned = false) :
    h.lTaskCreate a t = none := by
  unfold TaskHeap.lTaskCreate
  rw [ha, hb, hs, hq]
  rfl

/-- The queue and the block are given back, the reference is not. -/
theorem lTaskCreate_noTask (ha : a.badArgument = none) {param q : Nat}
    (hb : t.block = some param) (hq : t.queue = some q) (hs : t.spawned = false) :
    h.lTaskCreate a t = some ({ h with refs := t.ref :: h.refs }, .nil) := by
  unfold TaskHeap.lTaskCreate
  rw [ha, hb, hs, hq]
  simp [TaskHeap.vQueueDelete, TaskHeap.free]

/-- The task's own model makes a worker in the same calls. -/
theorem lTaskCreate_create (ha : a.badArgument = none) {param : Nat} (hb : t.block = some param) :
    (h.lTaskCreate a t).map (fun r => r.2 = .userdata param) =
      (LuaTask.create t.queue.isSome t.spawned).map fun task => task.worker = .started := by
  cases hs : t.spawned with
  | true =>
    obtain ⟨h', w, hcall, -⟩ := lTaskCreate_spawned (h := h) ha hb hs
    rw [hcall]
    simp [LuaTask.create]
  | false =>
    cases hq : t.queue with
    | none =>
      rw [lTaskCreate_noTask_noQueue ha hb hq hs]
      rfl
    | some q =>
      rw [lTaskCreate_noTask ha hb hq hs]
      simp [LuaTask.create]

/-- **Failed creation.**  A call leaves nothing behind exactly if its arguments
are rejected or nothing fails: no failure is cleaned up after. -/
theorem create_clean_iff (h : TaskHeap) (a : CreateArgs) (t : CreateTurn) :
    CreateClean h a t ↔ (a.badArgument = none → ¬ t.Fails) := by
  cases ha : a.badArgument with
  | some msg =>
    refine iff_of_true ⟨h, .raised msg, lTaskCreate_bad ha, fun _ => ⟨Or.inr ⟨msg, rfl⟩, rfl⟩, ?_⟩
      fun hnone => by cases hnone
    intro _ hnone
    rw [ha] at hnone
    cases hnone
  | none =>
    constructor
    · rintro ⟨h', r, hcall, hfail, -⟩ - hf
      obtain ⟨hr, hsame⟩ := hfail hf
      cases hb : t.block with
      | none =>
        rw [lTaskCreate_noBlock ha hb] at hcall
        cases hcall
      | some param =>
        cases hs : t.spawned with
        | true =>
          -- a worker was started, and the answer is its userdata
          obtain ⟨h'', w, hcall', -⟩ := lTaskCreate_spawned (h := h) ha hb hs
          obtain ⟨-, rfl⟩ := Prod.mk.inj (Option.some.inj (hcall.symm.trans hcall'))
          rcases hr with hr | ⟨msg, hr⟩ <;> cases hr
        | false =>
          cases hq : t.queue with
          | none =>
            rw [lTaskCreate_noTask_noQueue ha hb hq hs] at hcall
            cases hcall
          | some q =>
            -- the reference is still there
            rw [lTaskCreate_noTask ha hb hq hs] at hcall
            obtain ⟨rfl, -⟩ := Prod.mk.inj (Option.some.inj hcall)
            have hrefs := congrArg (fun h => h.refs.length) hsame
            simp at hrefs
    · intro hno
      have hno := hno rfl
      obtain ⟨param, hb⟩ := Option.ne_none_iff_exists'.mp fun hb => hno (Or.inl hb)
      obtain ⟨q, hq⟩ := Option.ne_none_iff_exists'.mp fun hq => hno (Or.inr (Or.inl hq))
      have hs : t.spawned = true := by
        by_contra hs
        exact hno (Or.inr (Or.inr (by simpa using hs)))
      obtain ⟨h', w, hcall, hw, rfl, hrefs, hqueues, hblocks⟩ :=
        lTaskCreate_spawned (h := h) ha hb hs
      refine ⟨h', _, hcall, fun hf => absurd hf hno, fun _ _ =>
        ⟨w, ⟨t.ref, false, t.queue, a.timerMs⟩, q, hw, rfl, ?_, hq, ?_, ?_⟩⟩
      · rw [hblocks]
        exact List.mem_cons_self
      · rw [hqueues, hq]
        exact List.mem_cons_self
      · rw [hrefs]
        exact List.mem_cons_self

/-- `xQueueCreate` fails and the worker starts. -/
def noQueue : CreateTurn := ⟨3, some 64, none, true⟩

theorem create_noQueue :
    ¬ ∀ (h : TaskHeap) (a : CreateArgs) (t : CreateTurn), CreateClean h a t := by
  intro hall
  obtain ⟨h', r, hcall, hfail, -⟩ := hall ⟨[], [], [], []⟩ ⟨none, none, none, none, none⟩ noQueue
  obtain ⟨hr, -⟩ := hfail (Or.inr (Or.inl rfl))
  obtain ⟨h'', w, hcall', -⟩ := lTaskCreate_spawned (h := ⟨[], [], [], []⟩)
    (a := ⟨none, none, none, none, none⟩) (t := noQueue) rfl rfl rfl
  obtain ⟨-, rfl⟩ := Prod.mk.inj (Option.some.inj (hcall.symm.trans hcall'))
  rcases hr with hr | ⟨msg, hr⟩ <;> cases hr

end CLIos
