import CLIos.Fos.QueueOrder
import CLIos.Lib.RtosHistory

/-!
# Queues, mutexes and semaphores of Lua code

What a run of the libraries (components/FOS) does on each object, in the order of
the kernel.  `KernelLog` is a run with the history of every object; the laws of
Lib/RtosHistory hold of each, whatever the interleaving.  So a mutex keeps Lua code of
different tasks apart, and a semaphore, which `semaphore.create` makes with a
count of 0, lets nothing through before it was given.
-/

namespace CLIos

open LuaApi Rtos Runs Locking

structure KernelLog where
  fos : Fos
  history : Nat → List (Done Caller Int)

namespace KernelLog

def record (s : KernelLog) (q : Served) : KernelLog :=
  { s with history := fun id =>
      if id = q.id then s.history id ++ [⟨q.caller, q.request⟩] else s.history id }

def step (s : KernelLog) (e : FosEvent) : Option KernelLog :=
  (s.fos.step e).map fun fos =>
  match s.fos.served e with
  | some q => { s.record q with fos := fos }
  | none => { s with fos := fos }

/-- Every object, with its history. -/
def Lawful (s : KernelLog) : Prop :=
  ∀ (id : Nat) (o : Object Caller Int), s.fos.objects[id]? = some o → o.Lawful (s.history id)

end KernelLog

def kernelLog : Machine KernelLog FosEvent where
  init := ⟨Fos.boot, fun _ => []⟩
  step := KernelLog.step

namespace Fos

variable {s s' : Fos}

/-- Objects are made empty, free and with a count of 0. -/
theorem new_of_create {size : Nat} {made : Bool} {o o' : Object Caller Int} (ho : o.New)
    (h : s.create size made o = some s') (hs' : s'.objects = s.objects ++ [o']) : o'.New := by
  unfold create at h
  split at h
  · cases h
  · split at h
    · cases h
      obtain rfl : o = o' := by simpa using hs'
      exact ho
    · cases h
      exact absurd hs'.symm (by simp)

/-- What a step serves, it does not make. -/
theorem length_objects_serve {c : Caller} {id : Nat} {r : Request Int}
    (h : s.serve c id r = some s') : s'.objects.length = s.objects.length := by
  obtain ⟨o, -, h⟩ := Option.bind_eq_some_iff.mp h
  cases hserve : o.serve c r with
  | done o' v =>
    simp only [hserve] at h
    cases h
    exact List.length_set
  | wait =>
    simp only [hserve] at h
    cases h
    rfl
  | refused =>
    simp only [hserve] at h
    cases h

theorem length_objects_wake {c : Caller} (h : s.onWake c = some s') :
    s'.objects.length = s.objects.length := by
  unfold onWake at h
  split at h
  · cases h
  · split at h
    · cases h
    · cases h
      rfl
    · obtain ⟨o, -, h⟩ := Option.bind_eq_some_iff.mp h
      split at h
      · cases h
        exact List.length_set
      · cases h
      · cases h

theorem new_of_call {c : Caller} {f : FosCall} {o : Object Caller Int} (h : s.onCall c f = some s')
    (hs' : s'.objects = s.objects ++ [o]) : o.New := by
  have hkept : s'.objects.length ≠ s.objects.length := by
    rw [hs', List.length_append, List.length_singleton]
    omega
  cases f with
  | queueCreate length made => exact new_of_create (o := .queue _ []) rfl h hs'
  | mutexCreate made =>
    have h : s.create 1 made (.mutex none) = some s' := h
    have hnew : Object.New (.mutex none : Object Caller Int) := rfl
    exact new_of_create hnew h hs'
  | semCreate count made => exact new_of_create (o := .semaphore _ 0) rfl h hs'
  | queueSend id val => exact absurd (length_objects_serve h) hkept
  | queueReceive id => exact absurd (length_objects_serve h) hkept
  | mutexLock id => exact absurd (length_objects_serve h) hkept
  | mutexUnlock id => exact absurd (length_objects_serve h) hkept
  | semTake id => exact absurd (length_objects_serve h) hkept
  | semGive id => exact absurd (length_objects_serve h) hkept
  | taskDelay =>
    cases h
    exact absurd rfl hkept
  | taskCreate hasQueue spawned =>
    obtain ⟨tasks, -, rfl⟩ := Option.map_eq_some_iff.mp h
    exact absurd rfl hkept
  | task k o =>
    obtain ⟨-, h⟩ := Option.ite_none_left_eq_some.mp h
    obtain ⟨tasks, -, rfl⟩ := Option.map_eq_some_iff.mp h
    exact absurd rfl hkept

theorem new_of_step {e : FosEvent} {o : Object Caller Int} (h : s.step e = some s')
    (hs' : s'.objects = s.objects ++ [o]) : o.New := by
  have hkept : s'.objects.length ≠ s.objects.length := by
    rw [hs', List.length_append, List.length_singleton]
    omega
  cases e with
  | call c f => exact new_of_call (Option.ite_none_right_eq_some.mp h).2 hs'
  | wake c => exact absurd (length_objects_wake h) hkept
  | worker k =>
    obtain ⟨t, m, t', -, -, -, -, rfl⟩ := onWorker_eq_some h
    exact absurd rfl hkept
  | giveBoot =>
    obtain ⟨-, h⟩ := Option.ite_none_right_eq_some.mp h
    cases h
    exact absurd rfl hkept

end Fos

/-! ## The laws -/

namespace KernelLog

/-- The objects that are made have their laws, and the others have no history. -/
structure Inv (s : KernelLog) : Prop where
  lawful : s.Lawful
  unmade : ∀ id, s.fos.objects.length ≤ id → s.history id = []

variable {s s' : KernelLog} {e : FosEvent}

theorem Inv.step (h : s.Inv) (hs : s.step e = some s') : s'.Inv := by
  obtain ⟨fos, hfos, hs⟩ := Option.map_eq_some_iff.mp hs
  cases Fos.moved hfos with
  | served q o o' hq ho hserve hobj =>
    simp only [hq] at hs
    subst hs
    have hlen : q.id < s.fos.objects.length := (List.getElem?_eq_some_iff.mp ho).1
    refine ⟨fun id o₁ ho₁ => ?_, fun id hle => ?_⟩
    · have ho₁ : fos.objects[id]? = some o₁ := ho₁
      rw [hobj] at ho₁
      by_cases hid : id = q.id
      · subst hid
        rw [List.getElem?_set_self hlen] at ho₁
        cases ho₁
        simp only [record, if_true]
        exact (h.lawful q.id o ho).serve (d := ⟨q.caller, q.request⟩) hserve
      · rw [List.getElem?_set_ne (Ne.symm hid)] at ho₁
        simp only [record, if_neg hid]
        exact h.lawful id o₁ ho₁
    · have hle : fos.objects.length ≤ id := hle
      rw [hobj, List.length_set] at hle
      have hid : id ≠ q.id := by omega
      simp only [record, if_neg hid]
      exact h.unmade id hle
  | made o hq ho hobj =>
    simp only [hq] at hs
    subst hs
    refine ⟨fun id o₁ ho₁ => ?_, fun id hle => ?_⟩
    · have ho₁ : fos.objects[id]? = some o₁ := ho₁
      rw [hobj] at ho₁
      rcases getElem?_concat_cases ho₁ with hold | ⟨rfl, rfl⟩
      · exact h.lawful id o₁ hold
      · show Object.Lawful (s.history _) _
        rw [h.unmade _ (Nat.le_refl _)]
        exact (Fos.new_of_step hfos hobj).lawful
    · have hle : fos.objects.length ≤ id := hle
      rw [hobj, List.length_append] at hle
      exact h.unmade id (by omega)
  | kept hq hobj =>
    simp only [hq] at hs
    subst hs
    refine ⟨fun id o₁ ho₁ => ?_, fun id hle => ?_⟩
    · have ho₁ : fos.objects[id]? = some o₁ := ho₁
      exact h.lawful id o₁ (hobj ▸ ho₁)
    · have hle : fos.objects.length ≤ id := hle
      exact h.unmade id (hobj ▸ hle)

theorem inv_init : kernelLog.init.Inv where
  lawful := fun id o ho => by cases ho
  unmade := fun _ _ => rfl

end KernelLog

/-- The log follows every run of the libraries. -/
theorem kernelLog_run (es : List FosEvent) :
    (kernelLog.run es).map KernelLog.fos = fos.run es := by
  refine Machine.run_map KernelLog.fos rfl (fun s e => ?_) es
  show (s.step e).map KernelLog.fos = s.fos.step e
  unfold KernelLog.step
  rw [Option.map_map]
  cases s.fos.step e with
  | none => rfl
  | some fos => cases s.fos.served e <;> rfl

/-- **The objects of the kernel.**  In every run of the libraries, whatever the
interleaving of their tasks, each queue, mutex and semaphore keeps its laws. -/
theorem kernel_objects_lawful (es : List FosEvent) :
    (kernelLog.run es).map KernelLog.fos = fos.run es ∧ kernelLog.Always KernelLog.Lawful es :=
  ⟨kernelLog_run es, Machine.always_mono (fun _ h => h.lawful)
    (Machine.always_of_step KernelLog.inv_init (fun _ _ _ h hs => h.step hs) es)⟩

end CLIos
