import CLIos.Fos.TaskOwnership
import CLIos.Lib.Refs

/-!
# The function that a task calls

`L_TASK_CREATE` stores the function in the registry with `luaL_ref`, under a key
that is free, and its key in the param block; `lua_task` gets the function of that
key with `lua_rawgeti` for every call, and both it and `L_TASK_GC` give the key
back with `luaL_unref` (components/FOS/fos_task.c).  `RegistryTasks` is the task library
with the registry; `calls` are the tasks that came to `lua_rawgeti`, with what it
pushed.

Each call of the Lua API is one step here: `L` is used by one task at a time, which
the code does not ensure, for the worker gives its key back without `luaMutex`.  A
block that was freed is taken to hold what it held.  A key that is free already is
never given back: Lua keeps a list of these in the registry, and has no defined
behaviour afterwards.

The keys are shared by all tasks.  A task that is used in order calls its own
function; one that gives its key back twice gives back the key of another task.
-/

namespace CLIos

open Resources Runs Refs

/-- `α` are the Lua functions. -/
structure RegistryTasks (α : Type) where
  tasks : List LuaTask
  /-- `func_ref` of each, and the function that was stored there -/
  params : List (Nat × α)
  registry : Table α
  calls : List (Nat × Option α)

inductive RegistryEvent (α : Type) where
  /-- `luaL_ref` returns `r` -/
  | create (hasQueue spawned : Bool) (f : α) (r : Nat)
  | op (k : Nat) (o : TaskOp)

namespace RegistryEvent

variable {α : Type}

def taskEvent : RegistryEvent α → TaskEvent
  | .create hasQueue spawned _ _ => .create hasQueue spawned
  | .op k o => .op k o

end RegistryEvent

/-- The step gives back the key of the task. -/
def LuaTask.unrefs (t : LuaTask) (o : TaskOp) : Bool :=
  decide (Access.release TaskResource.ref ∈ t.accesses o)

/-- The step is the `lua_rawgeti` of `lua_task`. -/
def LuaTask.rawgetis (t : LuaTask) (o : TaskOp) : Bool :=
  decide (o = .worker ∧ t.worker = .rawgeti)

namespace RegistryTasks

variable {α : Type}

def onCreate (s : RegistryTasks α) (hasQueue spawned : Bool) (f : α) (r : Nat) :
    Option (RegistryTasks α) :=
  (s.registry.ref r f).bind fun registry =>
  (LuaTask.create hasQueue spawned).map fun t => { s with
    tasks := s.tasks ++ [t]
    params := s.params ++ [(r, f)]
    registry := registry }

def onOp (s : RegistryTasks α) (k : Nat) (o : TaskOp) : Option (RegistryTasks α) :=
  s.tasks[k]?.bind fun t =>
  s.params[k]?.bind fun p =>
  (t.step o).bind fun t' =>
  (if t.unrefs o then s.registry.unref p.1 else some s.registry).map fun registry => { s with
    tasks := s.tasks.set k t'
    registry := registry
    calls := if t.rawgetis o then s.calls ++ [(k, s.registry p.1)] else s.calls }

def step (s : RegistryTasks α) : RegistryEvent α → Option (RegistryTasks α)
  | .create hasQueue spawned f r => s.onCreate hasQueue spawned f r
  | .op k o => s.onOp k o

end RegistryTasks

def registryTasks (α : Type) : Machine (RegistryTasks α) (RegistryEvent α) where
  init := ⟨[], [], fun _ => none, []⟩
  step := RegistryTasks.step

namespace RegistryTasks

variable {α : Type}

/-- The key of a task and its function, until the task has given the key back. -/
def holds (s : RegistryTasks α) (k : Nat) : Option (Nat × α) :=
  s.tasks[k]?.bind fun t => if t.gone .ref then none else s.params[k]?

/-- Every call was of the function that the task was created with. -/
def CallsOwn (s : RegistryTasks α) : Prop :=
  ∀ k v, (k, v) ∈ s.calls → ∃ r f, s.params[k]? = some (r, f) ∧ v = some f

/-! ## The task library inside -/

variable {s s' : RegistryTasks α} {e : RegistryEvent α}

theorem taskStep_of_step (h : s.step e = some s') : taskStep s.tasks e.taskEvent = some s'.tasks := by
  cases e with
  | create hasQueue spawned f r =>
    obtain ⟨registry, -, h⟩ := Option.bind_eq_some_iff.mp h
    obtain ⟨t, ht, rfl⟩ := Option.map_eq_some_iff.mp h
    show (LuaTask.create hasQueue spawned).map _ = _
    rw [ht]
    rfl
  | op k o =>
    obtain ⟨t, ht, h⟩ := Option.bind_eq_some_iff.mp h
    obtain ⟨p, hp, h⟩ := Option.bind_eq_some_iff.mp h
    obtain ⟨t', ht', h⟩ := Option.bind_eq_some_iff.mp h
    obtain ⟨registry, -, rfl⟩ := Option.map_eq_some_iff.mp h
    show s.tasks[k]?.bind _ = _
    rw [ht, Option.bind_some, ht']
    rfl

end RegistryTasks

namespace LuaTask

/-! ## The key of one task -/

theorem gone_ref_create {hasQueue spawned : Bool} {t : LuaTask}
    (h : create hasQueue spawned = some t) : t.gone .ref = false := by
  unfold create at h
  split at h
  · cases h
    rfl
  · split at h <;> cases h
    rfl

/-- A task used in order has its key until the step that gives it back. -/
theorem Good.gone_ref_step {t t' : LuaTask} {o : TaskOp} (h : Good t) (ho : t.Orderly o)
    (hs : t.step o = some t') :
    (t.unrefs o = true ∧ t.gone .ref = false ∧ t'.gone .ref = true) ∨
      (t.unrefs o = false ∧ t'.gone .ref = t.gone .ref) := by
  obtain ⟨u, hc, rfl⟩ := step_eq_some hs
  have hcount := h.releases_step ho hc .ref
  rw [Ledger.releases_record, h.releases] at hcount
  show _ ∧ _ ∧ u.gone .ref = true ∨ _ ∧ u.gone .ref = t.gone .ref
  by_cases hmem : Access.release TaskResource.ref ∈ t.accesses o
  · have hpos := List.count_pos_iff.mpr hmem
    refine .inl ⟨decide_eq_true hmem, ?_⟩
    cases hgone : t.gone .ref <;> cases hgone' : u.gone .ref <;> simp [hgone, hgone'] at hcount <;>
      first | exact ⟨rfl, rfl⟩ | omega
  · rw [List.count_eq_zero_of_not_mem hmem] at hcount
    refine .inr ⟨decide_eq_false hmem, ?_⟩
    cases hgone : t.gone .ref <;> cases hgone' : u.gone .ref <;> simp [hgone, hgone'] at hcount ⊢

theorem Good.gone_ref_rawgeti {t t' : LuaTask} {o : TaskOp} (h : Good t) (ho : t.Orderly o)
    (hs : t.step o = some t') (hget : t.rawgetis o = true) : t.gone .ref = false := by
  obtain ⟨rfl, hpc⟩ := of_decide_eq_true hget
  obtain ⟨u, hc, -⟩ := step_eq_some hs
  have hused := (h.orderly_iff (h.present hc) .worker).mp ho
  apply hused (.touch .ref)
  show _ ∈ t.worker.accesses
  rw [hpc]
  exact List.mem_cons_of_mem _ List.mem_cons_self

end LuaTask

namespace RegistryTasks

variable {α : Type} {s s' : RegistryTasks α}

structure Inv (s : RegistryTasks α) : Prop where
  good : ∀ t ∈ s.tasks, t.Good
  length : s.params.length = s.tasks.length
  matched : Matched s.registry s.holds
  calls : s.CallsOwn

theorem inv_init : (registryTasks α).init.Inv where
  good := fun t ht => by cases ht
  length := rfl
  matched := matched_empty
  calls := fun k v hv => by cases hv

theorem holds_eq {k : Nat} {t : LuaTask} (ht : s.tasks[k]? = some t) :
    s.holds k = if t.gone .ref then none else s.params[k]? := by
  unfold holds
  rw [ht, Option.bind_some]

/-- Who comes last holds its key, and the others what they held. -/
theorem Inv.holds_concat (h : s.Inv) {t : LuaTask} (ht : t.gone .ref = false) (p : Nat × α)
    (registry : Table α) (k : Nat) :
    holds ⟨s.tasks ++ [t], s.params ++ [p], registry, s.calls⟩ k =
      Function.update s.holds s.tasks.length (some p) k := by
  unfold holds
  simp only [Function.update_apply]
  by_cases hk : k < s.tasks.length
  · have hkp : k < s.params.length := h.length ▸ hk
    rw [List.getElem?_append_left hk, List.getElem?_append_left hkp, if_neg (Nat.ne_of_lt hk)]
  · by_cases heq : k = s.tasks.length
    · have hlast : (s.params ++ [p])[s.tasks.length]? = some p := by
        rw [← h.length, List.getElem?_concat_length]
      rw [heq, List.getElem?_concat_length, hlast, if_pos rfl, Option.bind_some, ht]
      rfl
    · have hlong : (s.tasks ++ [t]).length ≤ k := by
        rw [List.length_append, List.length_singleton]
        omega
      rw [if_neg heq, List.getElem?_eq_none hlong, List.getElem?_eq_none (Nat.le_of_not_lt hk)]
      rfl

/-- A task that makes a step holds its key as long as it has not given it back. -/
theorem holds_set {k : Nat} {t t' : LuaTask} (ht : s.tasks[k]? = some t) (registry : Table α)
    (calls : List (Nat × Option α)) (j : Nat) :
    holds ⟨s.tasks.set k t', s.params, registry, calls⟩ j =
      Function.update s.holds k (if t'.gone .ref then none else s.params[k]?) j := by
  unfold holds
  simp only [Function.update_apply]
  by_cases hj : j = k
  · rw [if_pos hj, hj, List.getElem?_set_self (List.getElem?_eq_some_iff.mp ht).1,
      Option.bind_some]
  · rw [if_neg hj, List.getElem?_set_ne (Ne.symm hj)]

theorem Inv.onCreate (h : s.Inv) {hasQueue spawned : Bool} {f : α} {r : Nat}
    (hs : s.onCreate hasQueue spawned f r = some s') : s'.Inv := by
  obtain ⟨registry, href, hs⟩ := Option.bind_eq_some_iff.mp hs
  obtain ⟨t, ht, rfl⟩ := Option.map_eq_some_iff.mp hs
  have hnone : s.holds s.tasks.length = none := by
    unfold holds
    rw [List.getElem?_eq_none (Nat.le_refl _)]
    rfl
  refine ⟨fun u hu => ?_, ?_, ?_, fun k v hv => ?_⟩
  · rcases List.mem_append.mp hu with hu | hu
    · exact h.good u hu
    · rw [List.mem_singleton.mp hu]
      exact LuaTask.create_good ht
  · show (s.params ++ [_]).length = (s.tasks ++ [t]).length
    rw [List.length_append, List.length_append, h.length]
    rfl
  · exact (h.matched.ref hnone href).congr
      (h.holds_concat (LuaTask.gone_ref_create ht) (r, f) _)
  · obtain ⟨r', f', hk, hv⟩ := h.calls k v hv
    have hlt := (List.getElem?_eq_some_iff.mp hk).1
    exact ⟨r', f', (List.getElem?_append_left hlt).trans hk, hv⟩

theorem Inv.onOp (h : s.Inv) {k : Nat} {o : TaskOp} (ho : ∀ t, s.tasks[k]? = some t → t.Orderly o)
    (hs : s.onOp k o = some s') : s'.Inv := by
  obtain ⟨t, ht, hs⟩ := Option.bind_eq_some_iff.mp hs
  obtain ⟨⟨r, f⟩, hp, hs⟩ := Option.bind_eq_some_iff.mp hs
  obtain ⟨t', ht', hs⟩ := Option.bind_eq_some_iff.mp hs
  obtain ⟨registry, hreg, rfl⟩ := Option.map_eq_some_iff.mp hs
  have hgood := h.good t (List.mem_of_getElem? ht)
  have horderly := ho t ht
  have hk : k < s.tasks.length := (List.getElem?_eq_some_iff.mp ht).1
  refine ⟨fun u hu => ?_, ?_, ?_, fun j v hv => ?_⟩
  · rcases List.mem_or_eq_of_mem_set hu with hu | rfl
    · exact h.good u hu
    · exact hgood.step horderly ht'
  · show s.params.length = (s.tasks.set k t').length
    rw [List.length_set]
    exact h.length
  · rcases hgood.gone_ref_step horderly ht' with ⟨hun, hgone, hgone'⟩ | ⟨hun, hgone⟩
    · have hheld : s.holds k = some (r, f) := by
        rw [holds_eq ht, hgone, hp]
        rfl
      rw [if_pos hun] at hreg
      refine (h.matched.unref hheld hreg).congr fun j => ?_
      rw [holds_set ht, hgone']
      rfl
    · rw [if_neg (by simp [hun])] at hreg
      obtain rfl := Option.some.inj hreg
      refine h.matched.congr fun j => ?_
      rw [holds_set ht, hgone, ← holds_eq ht, Function.update_eq_self]
  · -- only `lua_rawgeti` adds a call, and there the task still has its key
    have hold : (j, v) ∈ s.calls → ∃ r f, s.params[j]? = some (r, f) ∧ v = some f := h.calls j v
    by_cases hget : t.rawgetis o = true
    · simp only [hget, if_true] at hv
      rcases List.mem_append.mp hv with hv | hv
      · exact hold hv
      · cases List.mem_singleton.mp hv
        have hgone := hgood.gone_ref_rawgeti horderly ht' hget
        have hheld : s.holds k = some (r, f) := by
          rw [holds_eq ht, hgone, hp]
          rfl
        exact ⟨r, f, hp, h.matched.stored k r f hheld⟩
    · simp only [hget] at hv
      exact hold hv

/-- A step of a task that is used in order is one here: its key is not free. -/
theorem Inv.exists_onOp (h : s.Inv) {k : Nat} {t t' : LuaTask} {o : TaskOp}
    (ht : s.tasks[k]? = some t) (ho : t.Orderly o) (hs : t.step o = some t') :
    ∃ s', s.onOp k o = some s' := by
  have hk : k < s.params.length := h.length ▸ (List.getElem?_eq_some_iff.mp ht).1
  have hp : s.params[k]? = some s.params[k] := List.getElem?_eq_getElem hk
  have hreg : ∃ registry, (if t.unrefs o then s.registry.unref s.params[k].1
      else some s.registry) = some registry := by
    rcases (h.good t (List.mem_of_getElem? ht)).gone_ref_step ho hs with ⟨hun, hgone, -⟩ |
      ⟨hun, -⟩
    · have hheld : s.holds k = some (s.params[k].1, s.params[k].2) := by
        rw [holds_eq ht, hgone, hp]
        rfl
      rw [if_pos hun]
      exact Table.exists_unref (h.matched.stored k _ _ hheld)
    · exact ⟨s.registry, if_neg (by simp [hun])⟩
  obtain ⟨registry, hreg⟩ := hreg
  unfold RegistryTasks.onOp
  rw [ht, Option.bind_some, hp, Option.bind_some, hs, Option.bind_some, hreg]
  exact ⟨_, rfl⟩

theorem Inv.step (h : s.Inv) {e : RegistryEvent α} (ho : Orderly s.tasks e.taskEvent)
    (hs : s.step e = some s') : s'.Inv := by
  cases e with
  | create hasQueue spawned f r => exact h.onCreate hs
  | op k o => exact h.onOp ho hs

end RegistryTasks

/-- **The registry.**  In a run that uses every task in order, each call that a task
makes is of the function it was created with; the registry holds the functions of the
tasks that have not given their key back, each under a key of its own, and no others. -/
theorem task_calls_its_function {α : Type} (es : List (RegistryEvent α))
    (h : (registryTasks α).Along (fun s e => Orderly s.tasks e.taskEvent) es) :
    (registryTasks α).Always (fun s => s.CallsOwn ∧ Matched s.registry s.holds) es :=
  Machine.always_mono (fun _ hinv => ⟨hinv.calls, hinv.matched⟩)
    (Machine.always_of_along RegistryTasks.inv_init (fun _ _ _ hinv ho hs => hinv.step ho hs) es h)

instance (t : LuaTask) (o : TaskOp) : Decidable (t.Orderly o) :=
  match o with
  | .start => inferInstanceAs (Decidable (_ ∧ _ ∧ (_ → _)))
  | .stop | .suspend | .resume | .callGc | .collect => inferInstanceAs (Decidable (_ ∧ _))
  | .worker => inferInstanceAs (Decidable (_ → _))

instance (s : List LuaTask) (e : TaskEvent) : Decidable (Orderly s e) :=
  match e with
  | .create _ _ => isTrue trivial
  | .op k o => decidable_of_iff (∀ t ∈ s[k]?, t.Orderly o) Iff.rfl

/-- A task with the function `f` under the key `r`, until its first call is over. -/
def firstCall (k : Nat) (f : Char) (r : Nat) : List (RegistryEvent Char) :=
  [.create true true f r, .op k .start] ++ List.replicate 8 (.op k .worker)

/-- The first task is stopped and leaves, and the second gets its key. -/
theorem task_calls_its_function_two :
    let es := firstCall 0 'f' 1 ++ [.op 0 .stop] ++ List.replicate 3 (.op 0 .worker) ++
      firstCall 1 'g' 1
    ((registryTasks Char).run es).map RegistryTasks.calls =
        some [(0, some 'f'), (1, some 'g')] ∧
      (registryTasks Char).Always (fun s => s.CallsOwn ∧ Matched s.registry s.holds) es :=
  ⟨by decide, task_calls_its_function _ (Machine.along_of_check _ _ (by decide))⟩

/-! ## A key given back twice -/

namespace RegistryTasks

variable {α : Type} {s s' : RegistryTasks α} {j r : Nat}

/-- The key `r` of task `j` is free, and since `before` the task has found nothing there. -/
structure Bereft (before : List (Nat × Option α)) (j r : Nat) (s : RegistryTasks α) : Prop where
  key : ∃ f, s.params[j]? = some (r, f)
  free : s.registry r = none
  calls : ∃ later, s.calls = before ++ later ∧ ∀ v, (j, v) ∈ later → v = none

theorem Bereft.step {before : List (Nat × Option α)} (h : s.Bereft before j r)
    {e : RegistryEvent α} (he : ∀ hasQueue spawned f, e ≠ .create hasQueue spawned f r)
    (hs : s.step e = some s') : s'.Bereft before j r := by
  obtain ⟨⟨f, hj⟩, hfree, later, hcalls, hlater⟩ := h
  cases e with
  | create hasQueue spawned g r' =>
    obtain ⟨registry, href, hs⟩ := Option.bind_eq_some_iff.mp hs
    obtain ⟨t, ht, rfl⟩ := Option.map_eq_some_iff.mp hs
    have hr : r ≠ r' := by
      rintro rfl
      exact he hasQueue spawned g rfl
    have hlt := (List.getElem?_eq_some_iff.mp hj).1
    refine ⟨⟨f, (List.getElem?_append_left hlt).trans hj⟩, ?_, later, hcalls, hlater⟩
    show registry r = none
    rw [(Table.ref_eq_some href).2, if_neg hr]
    exact hfree
  | op k o =>
    obtain ⟨t, ht, hs⟩ := Option.bind_eq_some_iff.mp hs
    obtain ⟨p, hp, hs⟩ := Option.bind_eq_some_iff.mp hs
    obtain ⟨t', ht', hs⟩ := Option.bind_eq_some_iff.mp hs
    obtain ⟨registry, hreg, rfl⟩ := Option.map_eq_some_iff.mp hs
    refine ⟨⟨f, hj⟩, ?_, ?_⟩
    · show registry r = none
      split at hreg
      · rw [Table.unref_eq_some hreg]
        split
        · rfl
        · exact hfree
      · obtain rfl := Option.some.inj hreg
        exact hfree
    · show ∃ later, (if t.rawgetis o then s.calls ++ [(k, s.registry p.1)] else s.calls) = _ ∧ _
      split
      · refine ⟨later ++ [(k, s.registry p.1)], by rw [hcalls, List.append_assoc], fun v hv => ?_⟩
        rcases List.mem_append.mp hv with hv | hv
        · exact hlater v hv
        · cases List.mem_singleton.mp hv
          obtain rfl := Option.some.inj (hp.symm.trans hj)
          exact hfree
      · exact ⟨later, hcalls, hlater⟩

/-- The step in which another task gives back the key. -/
theorem bereft_of_unref {i : Nat} {o : TaskOp} {t : LuaTask} {f g : α}
    (hi : s.params[i]? = some (r, g)) (hj : s.params[j]? = some (r, f)) (hij : i ≠ j)
    (ht : s.tasks[i]? = some t) (hun : t.unrefs o = true) (hs : s.step (.op i o) = some s') :
    s'.Bereft s.calls j r := by
  obtain ⟨u, hu, hs⟩ := Option.bind_eq_some_iff.mp hs
  obtain ⟨p, hp, hs⟩ := Option.bind_eq_some_iff.mp hs
  obtain ⟨t', ht', hs⟩ := Option.bind_eq_some_iff.mp hs
  obtain ⟨registry, hreg, rfl⟩ := Option.map_eq_some_iff.mp hs
  obtain rfl := Option.some.inj (ht.symm.trans hu)
  obtain rfl := Option.some.inj (hi.symm.trans hp)
  refine ⟨⟨f, hj⟩, ?_, ?_⟩
  · show registry r = none
    rw [if_pos hun] at hreg
    rw [Table.unref_eq_some hreg, if_pos rfl]
  · show ∃ later, (if t.rawgetis o then s.calls ++ [(i, s.registry r)] else s.calls) = _ ∧ _
    split
    · refine ⟨[(i, s.registry r)], rfl, fun v hv => ?_⟩
      cases List.mem_singleton.mp hv
      exact absurd rfl hij
    · exact ⟨[], (List.append_nil _).symm, fun v hv => by cases hv⟩

end RegistryTasks

/-- **Another task's key.**  When a task gives back a key that `luaL_ref` has given to
task `j` meanwhile, as its worker does after `__gc`, task `j` finds no function at any
of its calls, until somebody is given the key again or gives it back once more. -/
theorem task_loses_its_function {α : Type} (s s' : RegistryTasks α) (es : List (RegistryEvent α))
    (i j r : Nat) (o : TaskOp) (t : LuaTask) (f g : α) (hi : s.params[i]? = some (r, g))
    (hj : s.params[j]? = some (r, f)) (hij : i ≠ j) (ht : s.tasks[i]? = some t)
    (hun : t.unrefs o = true) (hs : s.step (.op i o) = some s')
    (hes : ∀ e ∈ es, ∀ hasQueue spawned f', e ≠ .create hasQueue spawned f' r) :
    ((registryTasks α).restart s').Always (fun u => ∃ later, u.calls = s.calls ++ later ∧
      ∀ v, (j, v) ∈ later → v = none) es := by
  have halong : ((registryTasks α).restart s').Along
      (fun _ e => ∀ hasQueue spawned f', e ≠ .create hasQueue spawned f' r) es := by
    intro l e u u' hl _ _
    exact hes e (hl.subset (List.mem_append_right l List.mem_cons_self))
  exact Machine.always_mono (fun _ h => h.calls)
    (Machine.always_of_along (RegistryTasks.bereft_of_unref hi hj hij ht hun hs)
      (fun _ _ _ h he hs => h.step he hs) es halong)

/-- `__gc` is called for the first task before its worker has gone. -/
theorem task_loses_its_function_gc : ∃ s s', (registryTasks Char).run (firstCall 0 'f' 1 ++
      [.op 0 .callGc] ++ List.replicate 2 (.op 0 .worker) ++ firstCall 1 'g' 1) = some s ∧
    s.calls = [(0, some 'f'), (1, some 'g')] ∧
    ((registryTasks Char).restart s').Always (fun u => ∃ later, u.calls = s.calls ++ later ∧
      ∀ v, (1, v) ∈ later → v = none) (List.replicate 5 (.op 1 .worker)) ∧
    (((registryTasks Char).restart s').run (List.replicate 5 (.op 1 .worker))).map
      RegistryTasks.calls = some [(0, some 'f'), (1, some 'g'), (1, none)] :=
  ⟨_, _, rfl, rfl, task_loses_its_function _ _ _ 0 1 1 .worker _ 'g' 'f' rfl rfl (by decide) rfl rfl
    rfl (by simp), rfl⟩

end CLIos
