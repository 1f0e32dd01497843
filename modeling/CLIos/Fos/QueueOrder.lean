import CLIos.Fos.HoldAndWait

/-!
# What a queue does to the integers sent through it

`queue.send` narrows a Lua integer to the `int` that is an item of the queue, and
`queue.receive` makes a Lua integer of the item (components/FOS/fos_queue.c).
Tasks that find the queue full or empty wait, and are served in any order.

`QueueLog` is a run of the libraries together with the Lua integers that went into
each queue and those that came out of it, in the order of the kernel.  The items
keep that order, whatever the interleaving; each is what `int` keeps of its integer.
-/

namespace CLIos

open LuaApi Rtos Runs Locking

/-- A request that is done, and the value that goes to Lua. -/
structure Served where
  caller : Caller
  id : Nat
  request : Request Int
  value : Option Int

namespace Fos

/-- The request that the kernel tries at an event. -/
def tried (s : Fos) : FosEvent → Option (Caller × Nat × Request Int)
  | .call c f => f.request.map fun (id, r) => (c, id, r)
  | .wake c =>
    match s.waiting c with
    | some (.forever id r) => some (c, id, r)
    | _ => none
  | _ => none

def served (s : Fos) (e : FosEvent) : Option Served :=
  (s.tried e).bind fun (c, id, r) =>
  s.objects[id]?.bind fun o =>
  match o.serve c r with
  | .done _ v => some ⟨c, id, r, v⟩
  | .wait | .refused => none

end Fos

structure QueueLog where
  fos : Fos
  /-- the Lua integer of the last `queue.send` of a task -/
  passed : Caller → Int
  /-- the Lua integers whose items went into the queue -/
  sent : Nat → List Int
  received : Nat → List Int

namespace QueueLog

/-- `luaL_checkinteger(L, 2)` -/
def note (s : QueueLog) : FosEvent → QueueLog
  | .call c (.queueSend _ val) => { s with passed := fun c' => if c' = c then val else s.passed c' }
  | _ => s

def record (s : QueueLog) (q : Served) : QueueLog :=
  { s with
    sent := fun id => if id = q.id then s.sent id ++ q.request.put.map fun _ => s.passed q.caller
      else s.sent id
    received := fun id => if id = q.id then s.received id ++ q.value.toList else s.received id }

def step (s : QueueLog) (e : FosEvent) : Option QueueLog :=
  (s.fos.step e).map fun fos =>
  match s.fos.served e with
  | some q => { (s.note e).record q with fos := fos }
  | none => { s.note e with fos := fos }

end QueueLog

def queueLog : Machine QueueLog FosEvent where
  init := ⟨Fos.boot, fun _ => 0, fun _ => [], fun _ => []⟩
  step := QueueLog.step

/-! ## What a step does to the objects -/

namespace Fos

inductive Moved (s : Fos) (e : FosEvent) (s' : Fos) : Prop where
  | served (q : Served) (o o' : Object Caller Int) (hq : s.served e = some q)
      (ho : s.objects[q.id]? = some o) (hs : o.serve q.caller q.request = .done o' q.value)
      (hs' : s'.objects = s.objects.set q.id o')
  | made (o : Object Caller Int) (hq : s.served e = none) (ho : o.Fresh)
      (hs' : s'.objects = s.objects ++ [o])
  | kept (hq : s.served e = none) (hs' : s'.objects = s.objects)

variable {s s' : Fos} {c : Caller} {f : FosCall}

theorem served_of_tried {e : FosEvent} {id : Nat} {r : Request Int} {o : Object Caller Int}
    (ht : s.tried e = some (c, id, r)) (ho : s.objects[id]? = some o) :
    s.served e = match o.serve c r with
      | .done _ v => some ⟨c, id, r, v⟩
      | .wait | .refused => none := by
  unfold served
  rw [ht, Option.bind_some]
  simp only [ho, Option.bind_some]

theorem served_of_not_tried {e : FosEvent} (ht : s.tried e = none) : s.served e = none := by
  unfold served
  rw [ht]
  rfl

theorem tried_call {id : Nat} {r : Request Int} (hf : f.request = some (id, r)) :
    s.tried (.call c f) = some (c, id, r) := by
  show f.request.map _ = _
  rw [hf]
  rfl

theorem moved_serve {id : Nat} {r : Request Int} (hf : f.request = some (id, r))
    (h : s.serve c id r = some s') : Moved s (.call c f) s' := by
  obtain ⟨o, ho, h⟩ := Option.bind_eq_some_iff.mp h
  have hq := served_of_tried (tried_call (s := s) (c := c) hf) ho
  cases hserve : o.serve c r with
  | done o' v =>
    simp only [hserve] at h hq
    cases h
    exact .served _ o o' hq ho hserve rfl
  | wait =>
    simp only [hserve] at h hq
    cases h
    exact .kept hq rfl
  | refused =>
    simp only [hserve] at h
    cases h

theorem moved_create {size : Nat} {made : Bool} {o : Object Caller Int} (hf : f.request = none)
    (ho : o.Fresh) (h : s.create size made o = some s') : Moved s (.call c f) s' := by
  have hq : s.served (.call c f) = none := served_of_not_tried (by show f.request.map _ = _; rw [hf]; rfl)
  unfold create at h
  split at h
  · cases h
  · split at h <;> cases h
    · exact .made o hq ho rfl
    · exact .kept hq rfl

theorem moved_call (h : s.onCall c f = some s') : Moved s (.call c f) s' := by
  cases f with
  | taskCreate hasQueue spawned =>
    obtain ⟨tasks, -, rfl⟩ := Option.map_eq_some_iff.mp h
    exact .kept rfl rfl
  | task k o =>
    simp only [onCall] at h
    split at h
    · cases h
    · obtain ⟨tasks, -, rfl⟩ := Option.map_eq_some_iff.mp h
      exact .kept rfl rfl
  | taskDelay =>
    cases h
    exact .kept rfl rfl
  | queueCreate length made => exact moved_create rfl (o := .queue _ []) rfl h
  | mutexCreate made =>
    have h : s.create 1 made (.mutex none) = some s' := h
    exact moved_create rfl (show Object.Fresh (.mutex none) from trivial) h
  | semCreate count made => exact moved_create rfl (o := .semaphore _ 0) trivial h
  | queueSend id val => exact moved_serve rfl h
  | queueReceive id => exact moved_serve rfl h
  | mutexLock id => exact moved_serve rfl h
  | mutexUnlock id => exact moved_serve rfl h
  | semTake id => exact moved_serve rfl h
  | semGive id => exact moved_serve rfl h

theorem moved_wake (h : s.onWake c = some s') : Moved s (.wake c) s' := by
  unfold onWake at h
  split at h
  · cases h
  · cases hw : s.waiting c with
    | none =>
      rw [hw] at h
      cases h
    | some w =>
      cases w with
      | delay =>
        rw [hw] at h
        cases h
        exact .kept (served_of_not_tried (by simp only [tried, hw])) rfl
      | forever id r =>
        simp only [hw] at h
        obtain ⟨o, ho, h⟩ := Option.bind_eq_some_iff.mp h
        have ht : s.tried (.wake c) = some (c, id, r) := by simp only [tried, hw]
        have hq := served_of_tried ht ho
        cases hserve : o.serve c r with
        | done o' v =>
          simp only [hserve] at h hq
          cases h
          exact .served _ o o' hq ho hserve rfl
        | wait | refused =>
          simp only [hserve] at h
          cases h

theorem moved {e : FosEvent} (h : s.step e = some s') : Moved s e s' := by
  cases e with
  | call c f =>
    simp only [step, Option.ite_none_right_eq_some] at h
    exact moved_call h.2
  | wake c => exact moved_wake h
  | worker k =>
    obtain ⟨t, m, t', -, -, -, -, rfl⟩ := onWorker_eq_some h
    exact .kept rfl rfl
  | giveBoot =>
    simp only [step, Option.ite_none_right_eq_some] at h
    obtain ⟨-, h⟩ := h
    cases h
    exact .kept rfl rfl

/-- A task that waits in `queue.send` did so before, or has just called it. -/
theorem waiting_send {e : FosEvent} {id : Nat} {v : Int} (h : s.step e = some s')
    (hw : s'.waiting c = some (.forever id (.send v))) :
    s.waiting c = some (.forever id (.send v)) ∨
      ∃ val, e = .call c (.queueSend id val) ∧ v = toInt val := by
  cases e with
  | call c' f =>
    simp only [step, Option.ite_none_right_eq_some] at h
    cases called h.2 with
    | done | create | task => exact Or.inl hw
    | wait f id' r o hf =>
      by_cases hc : c = c'
      · subst hc
        have heq : id' = id ∧ r = .send v := by simpa [setWaiting] using hw
        obtain ⟨rfl, rfl⟩ := heq
        cases f <;> cases hf
        exact Or.inr ⟨_, rfl, rfl⟩
      · exact Or.inl (by simpa [setWaiting, hc] using hw)
    | delay =>
      by_cases hc : c = c'
      · simp [setWaiting, hc] at hw
      · exact Or.inl (by simpa [setWaiting, hc] using hw)
  | wake c' =>
    obtain ⟨-, -, hwait⟩ := onWake_spec h
    rcases hwait c with hnone | hsame
    · rw [hnone] at hw
      cases hw
    · exact Or.inl (hsame ▸ hw)
  | worker k =>
    obtain ⟨t, m, t', -, -, -, -, rfl⟩ := onWorker_eq_some h
    exact Or.inl hw
  | giveBoot =>
    simp only [step, Option.ite_none_right_eq_some] at h
    obtain ⟨-, h⟩ := h
    cases h
    exact Or.inl hw

theorem waiting_of_running {c : Caller} (h : s.running c = true) : s.waiting c = none := by
  obtain ⟨hnone, -⟩ := Bool.and_eq_true_iff.mp h
  exact Option.isNone_iff_eq_none.mp hnone

/-- Who is served has made the call at this event, or waited. -/
theorem served_request {e : FosEvent} {q : Served} (h : s.served e = some q) :
    (∃ f, e = .call q.caller f ∧ f.request = some (q.id, q.request)) ∨
      (e = .wake q.caller ∧ s.waiting q.caller = some (.forever q.id q.request)) := by
  obtain ⟨⟨c, id, r⟩, ht, h⟩ := Option.bind_eq_some_iff.mp h
  obtain ⟨o, -, h⟩ := Option.bind_eq_some_iff.mp h
  have hq : q.caller = c ∧ q.id = id ∧ q.request = r := by
    cases hserve : o.serve c r with
    | done o' v =>
      simp only [hserve] at h
      cases h
      exact ⟨rfl, rfl, rfl⟩
    | wait | refused =>
      simp only [hserve] at h
      cases h
  obtain ⟨rfl, rfl, rfl⟩ := hq
  cases e with
  | call c f =>
    obtain ⟨⟨id, r⟩, hp, heq⟩ := Option.map_eq_some_iff.mp ht
    cases heq
    exact Or.inl ⟨f, rfl, hp⟩
  | wake c =>
    cases hw : s.waiting c with
    | none => simp [tried, hw] at ht
    | some w =>
      cases w with
      | delay => simp [tried, hw] at ht
      | forever id r =>
        simp only [tried, hw] at ht
        cases ht
        exact Or.inr ⟨rfl, hw⟩
  | worker k => cases ht
  | giveBoot => cases ht

end Fos

/-! ## Order and values -/

namespace QueueLog

/-- What went into an object and out of it accounts for what it holds, and a waiting
sender's item is what `int` keeps of its integer. -/
structure Inv (s : QueueLog) : Prop where
  conserved : ∀ (id : Nat) (o : Object Caller Int), s.fos.objects[id]? = some o →
    o.Conserved ((s.sent id).map toInt) (s.received id)
  unmade : ∀ id, s.fos.objects.length ≤ id → s.sent id = [] ∧ s.received id = []
  waiting : ∀ c id v, s.fos.waiting c = some (.forever id (.send v)) → v = toInt (s.passed c)

theorem inv_boot : queueLog.init.Inv where
  conserved := fun id o ho => by cases ho
  unmade := fun _ _ => ⟨rfl, rfl⟩
  waiting := fun c id v hw => by cases hw

@[simp] theorem note_fos (s : QueueLog) (e : FosEvent) : (s.note e).fos = s.fos := by
  unfold note
  split <;> rfl

@[simp] theorem note_sent (s : QueueLog) (e : FosEvent) : (s.note e).sent = s.sent := by
  unfold note
  split <;> rfl

@[simp] theorem note_received (s : QueueLog) (e : FosEvent) : (s.note e).received = s.received := by
  unfold note
  split <;> rfl

theorem note_send (s : QueueLog) (c : Caller) (id : Nat) (val : Int) :
    (s.note (.call c (.queueSend id val))).passed c = val := if_pos rfl

/-- Only its own call changes what a task has passed. -/
theorem note_passed (s : QueueLog) (e : FosEvent) (c : Caller) (h : ∀ f, e ≠ .call c f) :
    (s.note e).passed c = s.passed c := by
  unfold note
  split
  · next c' id val =>
    refine if_neg fun hc => ?_
    exact h _ (by rw [hc])
  · rfl

variable {s s' : QueueLog} {e : FosEvent}

/-- The item of a request is what `int` keeps of the integer that was passed. -/
theorem Inv.put_eq (h : s.Inv) {q : Served} (hq : s.fos.served e = some q) :
    (q.request.put.map fun _ => (s.note e).passed q.caller).map toInt = q.request.put := by
  have hsend : ∀ v, q.request = .send v → toInt ((s.note e).passed q.caller) = v := by
    intro v hv
    rcases Fos.served_request hq with ⟨f, rfl, hf⟩ | ⟨rfl, hw⟩
    · rw [hv] at hf
      cases f <;> cases hf
      rw [note_send]
    · rw [hv] at hw
      rw [note_passed s _ _ (by intro f; exact FosEvent.noConfusion)]
      exact (h.waiting _ _ v hw).symm
  cases hr : q.request with
  | send v =>
    show [toInt _] = [v]
    rw [hsend v hr]
  | _ => rfl

theorem Inv.waiting_step (h : s.Inv) {fos : Fos} (hs : s.fos.step e = some fos) (c : Caller)
    (id : Nat) (v : Int) (hw : fos.waiting c = some (.forever id (.send v))) :
    v = toInt ((s.note e).passed c) := by
  rcases Fos.waiting_send hs hw with hold | ⟨val, rfl, rfl⟩
  · -- a task that waits makes no call
    have hcall : ∀ f, e ≠ .call c f := by
      rintro f rfl
      simp only [Fos.step, Option.ite_none_right_eq_some] at hs
      rw [Fos.waiting_of_running hs.1] at hold
      cases hold
    rw [note_passed s e c hcall]
    exact h.waiting c id v hold
  · rw [note_send]

theorem Inv.step (h : s.Inv) (hs : s.step e = some s') : s'.Inv := by
  obtain ⟨fos, hfos, hs⟩ := Option.map_eq_some_iff.mp hs
  cases Fos.moved hfos with
  | served q o o' hq ho hserve hobj =>
    simp only [hq] at hs
    subst hs
    have hlen : q.id < s.fos.objects.length := (List.getElem?_eq_some_iff.mp ho).1
    refine ⟨fun id o₁ ho₁ => ?_, fun id hle => ?_, h.waiting_step hfos⟩
    · have ho₁ : fos.objects[id]? = some o₁ := ho₁
      rw [hobj] at ho₁
      by_cases hid : id = q.id
      · subst hid
        rw [List.getElem?_set_self hlen] at ho₁
        cases ho₁
        have hserved := (h.conserved q.id o ho).serve hserve
        simp only [record, if_true, note_sent, note_received, List.map_append]
        rw [h.put_eq hq]
        exact hserved
      · rw [List.getElem?_set_ne (Ne.symm hid)] at ho₁
        simp only [record, if_neg hid, note_sent, note_received]
        exact h.conserved id o₁ ho₁
    · have hle : fos.objects.length ≤ id := hle
      rw [hobj, List.length_set] at hle
      have hid : id ≠ q.id := by omega
      simp only [record, if_neg hid, note_sent, note_received]
      exact h.unmade id hle
  | made o hq ho hobj =>
    simp only [hq] at hs
    subst hs
    refine ⟨fun id o₁ ho₁ => ?_, fun id hle => ?_, h.waiting_step hfos⟩
    · have ho₁ : fos.objects[id]? = some o₁ := ho₁
      rw [hobj] at ho₁
      simp only [note_sent, note_received]
      rcases getElem?_concat_cases ho₁ with hold | ⟨rfl, rfl⟩
      · exact h.conserved id o₁ hold
      · obtain ⟨hsent, hreceived⟩ := h.unmade _ (Nat.le_refl _)
        rw [hsent, hreceived]
        exact ho.conserved
    · have hle : fos.objects.length ≤ id := hle
      rw [hobj, List.length_append] at hle
      simp only [note_sent, note_received]
      exact h.unmade id (by omega)
  | kept hq hobj =>
    simp only [hq] at hs
    subst hs
    refine ⟨fun id o₁ ho₁ => ?_, fun id hle => ?_, h.waiting_step hfos⟩
    · have ho₁ : fos.objects[id]? = some o₁ := ho₁
      simp only [note_sent, note_received]
      exact h.conserved id o₁ (hobj ▸ ho₁)
    · have hle : fos.objects.length ≤ id := hle
      simp only [note_sent, note_received]
      exact h.unmade id (hobj ▸ hle)

/-- Order: what was received are the first integers sent, each as `int` keeps it. -/
theorem Inv.received_prefix (h : s.Inv) (id : Nat) :
    s.received id <+: (s.sent id).map toInt := by
  cases ho : s.fos.objects[id]? with
  | none =>
    obtain ⟨-, hreceived⟩ := h.unmade id (List.getElem?_eq_none_iff.mp ho)
    rw [hreceived]
    exact List.nil_prefix
  | some o =>
    have hcons := h.conserved id o ho
    cases o with
    | queue length items => exact ⟨items, hcons.symm⟩
    | mutex holder | semaphore max count =>
      rw [hcons.2]
      exact List.nil_prefix

/-- The integers whose items have been received. -/
def delivered (s : QueueLog) (id : Nat) : List Int := (s.sent id).take (s.received id).length

theorem Inv.received_eq (h : s.Inv) (id : Nat) : s.received id = (s.delivered id).map toInt := by
  unfold delivered
  rw [List.map_take]
  exact List.prefix_iff_eq_take.mp (h.received_prefix id)

/-- Values: they are unchanged exactly where all that was delivered is an `int`. -/
theorem Inv.received_prefix_sent_iff (h : s.Inv) (id : Nat) :
    s.received id <+: s.sent id ↔ ∀ v ∈ s.delivered id, -2147483648 ≤ v ∧ v < 2147483648 := by
  have hsame : s.received id <+: s.sent id ↔ s.received id = s.delivered id :=
    List.prefix_iff_eq_take
  have hid : (s.delivered id).map toInt = s.delivered id ↔ ∀ v ∈ s.delivered id, toInt v = v := by
    conv => lhs; rhs; rw [← List.map_id (s.delivered id)]
    exact List.map_inj_left
  rw [hsame, h.received_eq id, hid]
  exact forall₂_congr fun v _ => toInt_eq_self_iff v

end QueueLog

theorem queueLog_inv (es : List FosEvent) : queueLog.Always QueueLog.Inv es :=
  Machine.always_of_step QueueLog.inv_boot (fun _ _ _ h hs => h.step hs) es

/-- The log follows every run of the libraries. -/
theorem queueLog_run (es : List FosEvent) :
    (queueLog.run es).map QueueLog.fos = fos.run es := by
  refine Machine.run_map QueueLog.fos rfl (fun s e => ?_) es
  show (s.step e).map QueueLog.fos = s.fos.step e
  unfold QueueLog.step
  rw [Option.map_map]
  cases s.fos.step e with
  | none => rfl
  | some fos => cases s.fos.served e <;> rfl

/-- **Queues.**  In a run every queue gives back the integers that were sent, in their
order and unchanged, exactly if each of those it has given back was an `int`. -/
theorem queues_preserve_iff (es : List FosEvent) :
    queueLog.Always (fun s => ∀ id, s.received id <+: s.sent id) es ↔
      queueLog.Always (fun s => ∀ id, ∀ v ∈ s.delivered id,
        -2147483648 ≤ v ∧ v < 2147483648) es := by
  have hinv := queueLog_inv es
  constructor
  · intro h l s hl hs id
    exact ((hinv l s hl hs).received_prefix_sent_iff id).mp (h l s hl hs id)
  · intro h l s hl hs id
    exact ((hinv l s hl hs).received_prefix_sent_iff id).mpr (h l s hl hs id)

/-- `boot.lua` makes a queue, sends 2^31 and receives. -/
theorem queue_wraps :
    ¬ ∀ es, queueLog.Always (fun s => ∀ id, s.received id <+: s.sent id) es := by
  intro h
  have hrun : ∃ s, queueLog.run [.call .main (.queueCreate 1 true),
      .call .main (.queueSend 0 2147483648), .call .main (.queueReceive 0)] = some s ∧
      s.received 0 = [-2147483648] ∧ s.sent 0 = [2147483648] := ⟨_, rfl, rfl, rfl⟩
  obtain ⟨s, hs, hreceived, hsent⟩ := hrun
  have hprefix := h _ _ s List.prefix_rfl hs 0
  rw [hreceived, hsent] at hprefix
  exact absurd hprefix (by decide)

end CLIos
