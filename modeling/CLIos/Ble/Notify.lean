import CLIos.Ble.Ble

/-!
# Where notifications go

One variable stands for all connections, so it names a live one only as long as
connections do not overlap.  The tables have a `val_handle` for the two reports
and none for NUS TX: what is sent over it goes to the handle 0.
-/

namespace CLIos

open Runs

namespace Ble

/-- `g_conn_handle` is -1 without a connection and names a live one otherwise. -/
def ConnNamed (s : Ble) : Prop :=
  (s.connHandle = -1 ↔ s.live = []) ∧ (s.connHandle ≠ -1 → ∃ c ∈ s.live, s.connHandle = (c : Int))

/-- After `gatt_register` a notification has the handle of its characteristic. -/
def Addressed (n : Notification) : Prop := n.registered = true → n.assigned = some n.handle

def WellSent (s : Ble) : Prop := s.ConnNamed ∧ ∀ n ∈ s.notifications, Addressed n

/-- Only the last connection goes down, and after `gatt_register` nothing is
notified over NUS TX. -/
def OneByOne (s : Ble) : BleEvent → Prop
  | .disconnect conn => s.live = [conn]
  | .uartSend none _ t => s.registered = true → 0 ≤ s.connHandle → t.allocated = false
  | _ => True

/-- What the variables hold, in every run. -/
structure Wired (s : Ble) : Prop where
  keyboard : ∀ h, s.assigned .reportKeyboard = some h → s.handles .hidReportCharHandleKb = h
  mouse : ∀ h, s.assigned .reportMouse = some h → s.handles .hidReportCharHandleMouse = h
  nusTx : s.handles .nusTxHandle = 0
  positive : ∀ c h, s.assigned c = some h → 0 < h
  registered : s.registered = true → ∀ c, (s.assigned c).isSome = true

variable {s s' : Ble}

/-! ## The variables for handles -/

/-- What `ble_gatts_start` leaves in the three variables. -/
theorem writeHandles_tables (assigned : Characteristic → Option Nat) (handles : HandleVar → Nat) :
    let written := writeHandles assigned (writeHandles assigned handles gattSvrSvcs) hidSvc
    written .hidReportCharHandleKb =
        (assigned .reportKeyboard).getD (handles .hidReportCharHandleKb) ∧
      written .hidReportCharHandleMouse =
        (assigned .reportMouse).getD (handles .hidReportCharHandleMouse) ∧
      written .nusTxHandle = handles .nusTxHandle := by
  simp only [writeHandles, gattSvrSvcs, hidSvc, List.foldl_cons, List.foldl_nil]
  cases assigned .reportKeyboard <;> cases assigned .reportMouse <;> simp

theorem getD_of_or_eq_some {o o' : Option Nat} {d : Nat} (h : ∀ x, o' = some x → d = x) :
    ∀ x, o.or o' = some x → o.getD d = x := by
  intro x hx
  cases o with
  | none => exact h x hx
  | some y => exact Option.some.inj hx

theorem Wired.gattsStart (h : s.Wired) (t : GattTurn) :
    Wired { s.gattsStart t with registered := s.registered || t.failure.isNone } where
  keyboard := by
    intro x hx
    exact (writeHandles_tables t.assigned s.handles).1.trans (getD_of_or_eq_some h.keyboard x hx)
  mouse := by
    intro x hx
    exact (writeHandles_tables t.assigned s.handles).2.1.trans (getD_of_or_eq_some h.mouse x hx)
  nusTx := (writeHandles_tables t.assigned s.handles).2.2.trans h.nusTx
  positive := by
    intro c x hx
    rcases Option.or_eq_some_iff.mp hx with hx | ⟨-, hx⟩
    · exact t.positive c x hx
    · exact h.positive c x hx
  registered := by
    intro hr c
    show ((t.assigned c).or (s.assigned c)).isSome = true
    rw [Option.isSome_or, Bool.or_eq_true]
    rcases Bool.or_eq_true_iff.mp hr with hr | hf
    · exact Or.inr (h.registered hr c)
    · exact Or.inl (t.complete (Option.isNone_iff_eq_none.mp hf) c)

/-- Only `ble_gatts_start` writes what the invariant is about. -/
theorem Wired.frame (h : s.Wired) (hassigned : s'.assigned = s.assigned)
    (hhandles : s'.handles = s.handles) (hregistered : s'.registered = s.registered) :
    s'.Wired where
  keyboard := by
    rw [hassigned, hhandles]
    exact h.keyboard
  mouse := by
    rw [hassigned, hhandles]
    exact h.mouse
  nusTx := by
    rw [hhandles]
    exact h.nusTx
  positive := by
    rw [hassigned]
    exact h.positive
  registered := by
    rw [hregistered, hassigned]
    exact h.registered

theorem wired_init : ble.init.Wired where
  keyboard := fun _ h => nomatch h
  mouse := fun _ h => nomatch h
  nusTx := rfl
  positive := fun _ _ h => nomatch h
  registered := fun h => nomatch h

theorem wired_step (h : s.Wired) (e : BleEvent) (hstep : s.step e = some s') : s'.Wired := by
  cases e with
  | init t =>
    obtain ⟨ready, cb, ports, tasks, heq⟩ := luaBleInit_frame s t
    obtain rfl := Option.some.inj hstep
    rw [heq]
    exact h.frame rfl rfl rfl
  | gattRegister t =>
    obtain rfl := Option.some.inj hstep
    rcases luaBleGattRegister_cases s t with ⟨uart, heq⟩ | ⟨uart, hid, heq⟩
    · rw [heq]
      exact h.frame rfl rfl rfl
    · rw [heq]
      have hw : Wired { s with uartAdds := uart, hidAdds := hid } := h.frame rfl rfl rfl
      exact hw.gattsStart t
  | uartSend badArgument data t =>
    obtain rfl := Option.some.inj hstep
    rw [luaBleUartSend_eq]
    split_ifs
    · exact h.frame rfl rfl rfl
    · exact h
  | hidKey a t =>
    obtain rfl := Option.some.inj hstep
    rcases luaBleHidSendKey_cases s a t with heq | ⟨buf, heq⟩
    · rwa [heq]
    · rw [heq]
      exact h.frame rfl rfl rfl
  | hidMouse a t =>
    obtain rfl := Option.some.inj hstep
    rcases luaBleHidSendMouse_cases s a t with heq | ⟨buf, heq⟩
    · rwa [heq]
    · rw [heq]
      exact h.frame rfl rfl rfl
  | sync =>
    obtain ⟨-, rfl⟩ := step_sync_iff.mp hstep
    exact h.frame rfl rfl rfl
  | connect status conn =>
    rcases step_connect hstep with rfl | rfl
    · exact h
    · exact h.frame rfl rfl rfl
  | disconnect conn =>
    obtain ⟨-, rfl⟩ := step_disconnect hstep
    exact h.frame rfl rfl rfl

/-! ## Where a notification goes -/

theorem wellSent_init : ble.init.WellSent :=
  ⟨⟨iff_of_true rfl rfl, fun h => absurd rfl h⟩, fun _ h => absurd h List.not_mem_nil⟩

theorem wellSent_notify (s : Ble) (chr : Characteristic) (handle : Nat) (data : List Nat) :
    (s.notify chr handle data).WellSent ↔
      s.WellSent ∧ (s.registered = true → s.assigned chr = some handle) := by
  unfold WellSent notify
  simp only [List.mem_append, List.mem_singleton, or_imp, forall_and, forall_eq, and_assoc]
  rfl

/-- The notifications over the two reports are addressed. -/
theorem Wired.assigned_eq (h : s.Wired) (hr : s.registered = true) {chr : Characteristic}
    {handle : Nat} (hvar : ∀ x, s.assigned chr = some x → handle = x) :
    s.assigned chr = some handle := by
  obtain ⟨x, hx⟩ := Option.isSome_iff_exists.mp (h.registered hr chr)
  rw [hx, hvar x hx]

/-- Those over NUS TX never are. -/
theorem Wired.nusTx_ne (h : s.Wired) : s.assigned .nusTx ≠ some (s.handles .nusTxHandle) := by
  intro hx
  have := h.positive .nusTx _ hx
  have := h.nusTx
  omega

theorem wellSent_uartSend_iff (hw : s.Wired) (h : s.WellSent) (badArgument : Option String)
    (data : List Nat) (t : SendTurn) : (s.luaBleUartSend badArgument data t).1.WellSent ↔
      s.OneByOne (.uartSend badArgument data t) := by
  rw [luaBleUartSend_eq]
  cases badArgument with
  | some msg => simpa [OneByOne] using h
  | none =>
    simp only [OneByOne, true_and]
    split_ifs with hsend
    · simp only [wellSent_notify, h, hw.nusTx_ne, hsend.1, hsend.2, true_and, forall_const,
        Bool.true_eq_false]
    · refine iff_of_true h fun _ hconn => ?_
      simpa using fun hm => hsend ⟨hconn, hm⟩

theorem wellSent_disconnect_iff (h : s.WellSent) {conn : Nat}
    (hstep : s.step (.disconnect conn) = some s') : s'.WellSent ↔ s.live = [conn] := by
  obtain ⟨hmem, rfl⟩ := step_disconnect hstep
  have hlast : s.live.erase conn = [] ↔ s.live = [conn] := by
    rw [← List.length_eq_zero_iff, List.length_erase_of_mem hmem]
    constructor
    · intro hlen
      have hpos := List.length_pos_of_mem hmem
      obtain ⟨c, hc⟩ := List.length_eq_one_iff.mp (show s.live.length = 1 by omega)
      rw [hc, List.mem_singleton] at hmem
      rw [hc, hmem]
    · intro hlive
      rw [hlive]
      rfl
  rw [← hlast]
  constructor
  · intro h'
    exact h'.1.1.mp rfl
  · intro hnil
    exact ⟨⟨iff_of_true rfl hnil, fun hne => absurd rfl hne⟩, h.2⟩

theorem wellSent_step_iff (hw : s.Wired) (h : s.WellSent) (e : BleEvent)
    (hstep : s.step e = some s') : s'.WellSent ↔ s.OneByOne e := by
  cases e with
  | init t =>
    obtain ⟨ready, cb, ports, tasks, heq⟩ := luaBleInit_frame s t
    obtain rfl := Option.some.inj hstep
    rw [heq]
    exact iff_of_true h trivial
  | gattRegister t =>
    obtain rfl := Option.some.inj hstep
    rcases luaBleGattRegister_cases s t with ⟨uart, heq⟩ | ⟨uart, hid, heq⟩
    · rw [heq]
      exact iff_of_true h trivial
    · rw [heq]
      exact iff_of_true h trivial
  | uartSend badArgument data t =>
    obtain rfl := Option.some.inj hstep
    exact wellSent_uartSend_iff hw h badArgument data t
  | hidKey a t =>
    obtain rfl := Option.some.inj hstep
    refine iff_of_true ?_ trivial
    rcases luaBleHidSendKey_cases s a t with heq | ⟨buf, heq⟩
    · rwa [heq]
    · rw [heq, wellSent_notify]
      exact ⟨h, fun hr => hw.assigned_eq hr hw.keyboard⟩
  | hidMouse a t =>
    obtain rfl := Option.some.inj hstep
    refine iff_of_true ?_ trivial
    rcases luaBleHidSendMouse_cases s a t with heq | ⟨buf, heq⟩
    · rwa [heq]
    · rw [heq, wellSent_notify]
      exact ⟨h, fun hr => hw.assigned_eq hr hw.mouse⟩
  | sync =>
    obtain ⟨-, rfl⟩ := step_sync_iff.mp hstep
    exact iff_of_true h trivial
  | connect status conn =>
    refine iff_of_true ?_ trivial
    rcases step_connect hstep with rfl | rfl
    · exact h
    · refine ⟨⟨?_, fun _ => ⟨conn, List.mem_cons_self, rfl⟩⟩, h.2⟩
      exact iff_of_false (by simp only; omega) (List.cons_ne_nil _ _)
  | disconnect conn => exact wellSent_disconnect_iff h hstep

end Ble

/-! ## Every run -/

/-- **When notifications reach the right place.**  Exactly as long as every
connection that goes down is the only one and `uart_send` does not get to notify
after `gatt_register`. -/
theorem wellSent_iff (es : List BleEvent) : ble.Always Ble.WellSent es ↔ ble.Along Ble.OneByOne es := by
  refine Machine.always_iff_along (I := fun s : Ble => s.Wired ∧ s.WellSent) ?_
    (fun s h => h.2) ?_ es
  · exact ⟨Ble.wired_init, Ble.wellSent_init⟩
  · intro s e s' h hstep
    have hiff := Ble.wellSent_step_iff h.1 h.2 e hstep
    exact ⟨fun hQ => ⟨Ble.wired_step h.1 e hstep, hiff.mpr hQ⟩, hiff.mp⟩

/-- Of two connections the first goes down. -/
theorem second_connection_forgotten :
    ¬ ∀ es, ble.Always Ble.WellSent es := by
  intro h
  have hsent := h _ [.connect 0 0, .connect 0 1, .disconnect 0] _ List.prefix_rfl rfl
  exact absurd (hsent.1.1.mp rfl) (by decide)

end CLIos
