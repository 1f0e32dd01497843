import CLIos.Lib.LuaApi
import CLIos.Lib.Machine

/-!
# Bluetooth

The Bluetooth library (components/BLE/ble_ble.c) without advertising.  Two
things about it are asynchronous: the stack calls `ble_on_sync` once it is told
to, by `ble_hs_cfg.sync_cb`, and it reports connections and disconnections to
`ble_gap_event`.  How the calls into NimBLE end is part of the event.

NimBLE assigns a value handle to every characteristic of the tables it was given
when the server starts, and writes it through `val_handle` where an entry has
one.  No attribute has the handle 0.  Nothing in the library takes the stack
down again.
-/

namespace CLIos

open LuaApi Runs

inductive Characteristic where
  | nusTx
  | nusRx
  | reportMap
  | reportKeyboard
  | reportMouse
deriving DecidableEq

/-- The variables for value handles. -/
inductive HandleVar where
  | nusTxHandle
  | nusRxHandle
  | hidReportCharHandleKb
  | hidReportCharHandleMouse
deriving DecidableEq

/-- An entry of a table of characteristics. -/
structure ChrDef where
  chr : Characteristic
  valHandle : Option HandleVar

def gattSvrSvcs : List ChrDef := [⟨.nusTx, none⟩, ⟨.nusRx, none⟩]

def hidSvc : List ChrDef :=
  [⟨.reportMap, none⟩, ⟨.reportKeyboard, some .hidReportCharHandleKb⟩,
    ⟨.reportMouse, some .hidReportCharHandleMouse⟩]

/-- A call of `ble_gattc_notify_custom`: the characteristic it is meant for, with
the handle that the server has assigned to it by then. -/
structure Notification where
  conn : Int
  chr : Characteristic
  handle : Nat
  assigned : Option Nat
  /-- `gatt_register` has succeeded before -/
  registered : Bool
  data : List Nat

structure Ble where
  nimbleReady : Bool
  connHandle : Int
  handles : HandleVar → Nat
  /-- `sync_cb` is `ble_on_sync` -/
  syncCb : Bool
  /-- the calls of `nimble_port_init` that succeeded -/
  portInits : Nat
  hostTasks : Nat
  /-- the calls of `ble_gatts_add_svcs` that succeeded, for each table -/
  uartAdds : Nat
  hidAdds : Nat
  /-- the connections that are up -/
  live : List Nat
  assigned : Characteristic → Option Nat
  registered : Bool
  notifications : List Notification

/-- What a call returns: true, false with a message, or a Lua error. -/
inductive BleAnswer where
  | ok
  | failed (msg : String)
  | error (msg : String)
deriving DecidableEq

/-- How the calls of `lua_ble_init` end; `synced` if `ble_on_sync` runs while it waits. -/
structure InitTurn where
  memReleased : Bool
  portInit : Bool
  portInitAgain : Bool
  synced : Bool

/-- The call of `lua_ble_gatt_register` that fails. -/
inductive GattFailure where
  | countUart
  | addUart
  | countHid
  | addHid
  | start
deriving DecidableEq

/-- `assigned` are the handles that `ble_gatts_start` assigns. -/
structure GattTurn where
  failure : Option GattFailure
  assigned : Characteristic → Option Nat
  positive : ∀ c h, assigned c = some h → 0 < h
  complete : failure = none → ∀ c, (assigned c).isSome = true

/-- Whether there is an `os_mbuf`, and what `ble_gattc_notify_custom` returns. -/
structure SendTurn where
  allocated : Bool
  notified : Bool

/-- The arguments of `ble.hid_key`; `keycodes` are the integers in the table. -/
structure KeyArgs where
  modifiers : Option Int
  isTable : Bool
  keycodes : Nat → Option Int

structure MouseArgs where
  badArgument : Option String
  buttons : Int
  x : Int
  y : Int
  wheel : Option Int

inductive BleEvent where
  | init (t : InitTurn)
  | gattRegister (t : GattTurn)
  | uartSend (badArgument : Option String) (data : List Nat) (t : SendTurn)
  | hidKey (a : KeyArgs) (t : SendTurn)
  | hidMouse (a : MouseArgs) (t : SendTurn)
  | sync
  | connect (status : Int) (conn : Nat)
  | disconnect (conn : Nat)

namespace Ble

/-! ## Bringing the stack up -/

def bleOnSync (s : Ble) : Ble := { s with nimbleReady := true }

def luaBleInit (s : Ble) (t : InitTurn) : Ble × BleAnswer :=
  if s.nimbleReady then (s, .ok)
  else if t.memReleased = false then (s, .failed "bt_controller_mem_release failed")
  else if t.portInit = false then (s, .failed "nimble_port_init failed")
  else
    -- the source calls `nimble_port_init` a second time
    let s := { s with portInits := s.portInits + 1 }
    if t.portInitAgain = false then (s, .failed "nimble_port_init failed")
    else
      let s := { s with
        portInits := s.portInits + 1
        syncCb := true
        hostTasks := s.hostTasks + 1 }
      if t.synced then (s.bleOnSync, .ok) else (s, .failed "nimble sync timeout")

/-- The handles of a table, through its `val_handle` pointers. -/
def writeHandles (assigned : Characteristic → Option Nat) (handles : HandleVar → Nat)
    (table : List ChrDef) : HandleVar → Nat :=
  table.foldl (fun handles d =>
    match d.valHandle, assigned d.chr with
    | some v, some h => fun v' => if v' = v then h else handles v'
    | _, _ => handles) handles

/-- `ble_gatts_start`, also if it fails half way. -/
def gattsStart (s : Ble) (t : GattTurn) : Ble :=
  { s with
    assigned := fun c => (t.assigned c).or (s.assigned c)
    handles := writeHandles t.assigned (writeHandles t.assigned s.handles gattSvrSvcs) hidSvc }

def luaBleGattRegister (s : Ble) (t : GattTurn) : Ble × BleAnswer :=
  match t.failure with
  | some .countUart => (s, .failed "count_cfg uart failed")
  | some .addUart => (s, .failed "add_svcs uart failed")
  | some .countHid => ({ s with uartAdds := s.uartAdds + 1 }, .failed "count_cfg hid failed")
  | some .addHid => ({ s with uartAdds := s.uartAdds + 1 }, .failed "add_svcs hid failed")
  | some .start =>
    (gattsStart { s with uartAdds := s.uartAdds + 1, hidAdds := s.hidAdds + 1 } t,
      .failed "gatts_start failed")
  | none =>
    ({ gattsStart { s with uartAdds := s.uartAdds + 1, hidAdds := s.hidAdds + 1 } t with
      registered := true }, .ok)

/-! ## Connections -/

/-- `ble_gap_event`, with the connections as the stack sees them. -/
def onConnect (s : Ble) (status : Int) (conn : Nat) : Option Ble :=
  if status = 0 then
    if conn ∈ s.live then none else some { s with live := conn :: s.live, connHandle := conn }
  else some s

def onDisconnect (s : Ble) (conn : Nat) : Option Ble :=
  if conn ∈ s.live then some { s with live := s.live.erase conn, connHandle := -1 } else none

/-! ## Notifications -/

/-- `ble_gattc_notify_custom(g_conn_handle, handle, om)` -/
def notify (s : Ble) (chr : Characteristic) (handle : Nat) (data : List Nat) : Ble :=
  { s with notifications := s.notifications ++
      [⟨s.connHandle, chr, handle, s.assigned chr, s.registered, data⟩] }

def luaBleUartSend (s : Ble) (badArgument : Option String) (data : List Nat) (t : SendTurn) :
    Ble × BleAnswer :=
  match badArgument with
  | some msg => (s, .error msg)
  | none =>
    if s.connHandle < 0 then (s, .failed "no connection")
    else if t.allocated = false then (s, .failed "mbuf alloc failed")
    else
      let s := s.notify .nusTx (s.handles .nusTxHandle) data
      if t.notified = false then (s, .failed "notify failed") else (s, .ok)

/-- `hid_send_report`; the answer tells whether it returns `ESP_OK`. -/
def hidSendReport (s : Ble) (chr : Characteristic) (handle : Nat) (buf : List Nat) (t : SendTurn) :
    Ble × Bool :=
  if s.connHandle < 0 then (s, false)
  else if t.allocated = false then (s, false)
  else (s.notify chr handle buf, t.notified)

def hidAnswer (r : Ble × Bool) : Ble × BleAnswer :=
  (r.1, if r.2 then .ok else .failed "hid send failed")

def keyReport (modifiers : Int) (keycodes : Nat → Option Int) : List Nat :=
  [1, toUint8 modifiers, 0] ++ (List.range 6).map fun i => toUint8 ((keycodes (i + 1)).getD 0)

def luaBleHidSendKey (s : Ble) (a : KeyArgs) (t : SendTurn) : Ble × BleAnswer :=
  match a.modifiers with
  | none => (s, .error "modifiers must be integer")
  | some modifiers =>
    if a.isTable = false then (s, .error "keycodes must be table")
    else hidAnswer (s.hidSendReport .reportKeyboard (s.handles .hidReportCharHandleKb)
      (keyReport modifiers a.keycodes) t)

def mouseReport (a : MouseArgs) : List Nat :=
  [2, toUint8 a.buttons, toUint8 a.x, toUint8 a.y, toUint8 (a.wheel.getD 0)]

def luaBleHidSendMouse (s : Ble) (a : MouseArgs) (t : SendTurn) : Ble × BleAnswer :=
  match a.badArgument with
  | some msg => (s, .error msg)
  | none =>
    hidAnswer (s.hidSendReport .reportMouse (s.handles .hidReportCharHandleMouse)
      (mouseReport a) t)

/-- The answer of a call; an event of the stack has none. -/
def answer (s : Ble) : BleEvent → Option BleAnswer
  | .init t => some (s.luaBleInit t).2
  | .gattRegister t => some (s.luaBleGattRegister t).2
  | .uartSend badArgument data t => some (s.luaBleUartSend badArgument data t).2
  | .hidKey a t => some (s.luaBleHidSendKey a t).2
  | .hidMouse a t => some (s.luaBleHidSendMouse a t).2
  | .sync | .connect _ _ | .disconnect _ => none

def step (s : Ble) : BleEvent → Option Ble
  | .init t => some (s.luaBleInit t).1
  | .gattRegister t => some (s.luaBleGattRegister t).1
  | .uartSend badArgument data t => some (s.luaBleUartSend badArgument data t).1
  | .hidKey a t => some (s.luaBleHidSendKey a t).1
  | .hidMouse a t => some (s.luaBleHidSendMouse a t).1
  | .sync => if s.syncCb then some s.bleOnSync else none
  | .connect status conn => s.onConnect status conn
  | .disconnect conn => s.onDisconnect conn

variable {s s' : Ble}

/-! ## What a call does -/

theorem luaBleInit_frame (s : Ble) (t : InitTurn) :
    ∃ ready cb ports tasks, (s.luaBleInit t).1 =
      { s with nimbleReady := ready, syncCb := cb, portInits := ports, hostTasks := tasks } := by
  unfold luaBleInit
  split_ifs
  · exact ⟨_, _, _, _, rfl⟩
  · exact ⟨_, _, _, _, rfl⟩
  · exact ⟨_, _, _, _, rfl⟩
  · exact ⟨_, _, _, _, rfl⟩
  · exact ⟨_, _, _, _, rfl⟩
  · exact ⟨_, _, _, _, rfl⟩

/-- `gatt_register` stops before `ble_gatts_start`, or it gets there with both
tables added. -/
theorem luaBleGattRegister_cases (s : Ble) (t : GattTurn) :
    (∃ uart, (s.luaBleGattRegister t).1 = { s with uartAdds := uart }) ∨
      ∃ uart hid, (s.luaBleGattRegister t).1 =
        { gattsStart { s with uartAdds := uart, hidAdds := hid } t with
          registered := s.registered || t.failure.isNone } := by
  unfold luaBleGattRegister
  rcases t.failure with _ | _ | _ | _ | _ | _
  · right
    exact ⟨s.uartAdds + 1, s.hidAdds + 1, by simp [gattsStart]⟩
  · exact Or.inl ⟨s.uartAdds, rfl⟩
  · exact Or.inl ⟨s.uartAdds, rfl⟩
  · exact Or.inl ⟨s.uartAdds + 1, rfl⟩
  · exact Or.inl ⟨s.uartAdds + 1, rfl⟩
  · right
    exact ⟨s.uartAdds + 1, s.hidAdds + 1, by simp [gattsStart]⟩

theorem luaBleUartSend_eq (s : Ble) (badArgument : Option String) (data : List Nat) (t : SendTurn) :
    (s.luaBleUartSend badArgument data t).1 =
      if badArgument = none ∧ 0 ≤ s.connHandle ∧ t.allocated = true then
        s.notify .nusTx (s.handles .nusTxHandle) data
      else s := by
  unfold luaBleUartSend
  cases badArgument with
  | some msg => simp
  | none =>
    by_cases hconn : s.connHandle < 0
    · have : ¬ 0 ≤ s.connHandle := by omega
      simp [hconn, this]
    · have : 0 ≤ s.connHandle := by omega
      cases hm : t.allocated <;> cases t.notified <;> simp [hconn, this]

theorem hidSendReport_cases (s : Ble) (chr : Characteristic) (handle : Nat) (buf : List Nat)
    (t : SendTurn) : (s.hidSendReport chr handle buf t).1 = s ∨
      (s.hidSendReport chr handle buf t).1 = s.notify chr handle buf := by
  unfold hidSendReport
  split_ifs
  · exact Or.inl rfl
  · exact Or.inl rfl
  · exact Or.inr rfl

theorem luaBleHidSendKey_cases (s : Ble) (a : KeyArgs) (t : SendTurn) :
    (s.luaBleHidSendKey a t).1 = s ∨ ∃ buf, (s.luaBleHidSendKey a t).1 =
      s.notify .reportKeyboard (s.handles .hidReportCharHandleKb) buf := by
  unfold luaBleHidSendKey
  cases a.modifiers with
  | none => exact Or.inl rfl
  | some modifiers =>
    split_ifs
    · exact Or.inl rfl
    · exact (hidSendReport_cases ..).imp id fun h => ⟨_, h⟩

theorem luaBleHidSendMouse_cases (s : Ble) (a : MouseArgs) (t : SendTurn) :
    (s.luaBleHidSendMouse a t).1 = s ∨ ∃ buf, (s.luaBleHidSendMouse a t).1 =
      s.notify .reportMouse (s.handles .hidReportCharHandleMouse) buf := by
  unfold luaBleHidSendMouse
  cases a.badArgument with
  | some msg => exact Or.inl rfl
  | none => exact (hidSendReport_cases ..).imp id fun h => ⟨_, h⟩

theorem step_sync_iff : s.step .sync = some s' ↔ s.syncCb = true ∧ s' = s.bleOnSync := by
  rw [show s.step .sync = if s.syncCb then some s.bleOnSync else none from rfl,
    Option.ite_none_right_eq_some, Option.some.injEq, eq_comm (a := s')]

theorem step_connect {status : Int} {conn : Nat} (h : s.step (.connect status conn) = some s') :
    s' = s ∨ s' = { s with live := conn :: s.live, connHandle := conn } := by
  simp only [step, onConnect] at h
  split_ifs at h
  · exact Or.inr (Option.some.inj h).symm
  · exact Or.inl (Option.some.inj h).symm

theorem step_disconnect {conn : Nat} (h : s.step (.disconnect conn) = some s') :
    conn ∈ s.live ∧ s' = { s with live := s.live.erase conn, connHandle := -1 } := by
  simp only [step, onDisconnect] at h
  split_ifs at h with hmem
  exact ⟨hmem, (Option.some.inj h).symm⟩

end Ble

def ble : Machine Ble BleEvent where
  init := ⟨false, -1, fun _ => 0, false, 0, 0, 0, 0, [], fun _ => none, false, []⟩
  step := Ble.step

end CLIos
