import CLIos.Lib.Machine

/-!
# Network initialisation

`_WifiInitCore` (components/NET/net_wifi.c) and `L_NET_INIT`
(components/NET/net_net.c) start the same services of ESP-IDF: NVS, the default
event loop and the network interfaces.  `_API_BINDING_C` (main/init.c) opens the
Wi-Fi module, and with it runs the first, before any Lua code runs.

`L_NET_INIT` has a flag of its own and erases an NVS partition that it cannot
use; `_WifiInitCore` has neither.  A check that sees an error ends the firmware
(`none`).
-/

namespace CLIos

open Runs

inductive EspErr where
  | ok
  | nvsNoFreePages
  | nvsNewVersionFound
  | invalidState
deriving DecidableEq

inductive NvsPartition where
  | usable
  | noFreePages
  | newVersionFound
deriving DecidableEq

/-- The services, as far as their calls answer differently. -/
structure EspServices where
  nvs : NvsPartition
  eventLoop : Bool
deriving DecidableEq

namespace EspServices

def nvsFlashInit (s : EspServices) : EspErr × EspServices :=
  match s.nvs with
  | .usable => (.ok, s)
  | .noFreePages => (.nvsNoFreePages, s)
  | .newVersionFound => (.nvsNewVersionFound, s)

def nvsFlashErase (s : EspServices) : EspErr × EspServices := (.ok, { s with nvs := .usable })

/-- There is one default event loop. -/
def eventLoopCreateDefault (s : EspServices) : EspErr × EspServices :=
  if s.eventLoop then (.invalidState, s) else (.ok, { s with eventLoop := true })

def netifInit (s : EspServices) : EspErr × EspServices := (.ok, s)

/-- `esp_event_handler_register`, on the default loop -/
def eventHandlerRegister (s : EspServices) : EspErr × EspServices :=
  if s.eventLoop then (.ok, s) else (.invalidState, s)

/-- `ESP_ERROR_CHECK` -/
def check (r : EspErr × EspServices) : Option EspServices :=
  if r.1 = .ok then some r.2 else none

end EspServices

open EspServices

/-- `_WifiInitCore` -/
def wifiInitCore (s : EspServices) : Option EspServices :=
  (check s.nvsFlashInit).bind fun s =>
  (check s.eventLoopCreateDefault).bind fun s =>
  (check s.netifInit).bind fun s =>
  (check s.eventHandlerRegister).bind fun s =>
  check s.eventHandlerRegister

/-- The modules, in the order in which `_API_BINDING_C` opens them. -/
inductive LuaModule where
  | os | fs | gpio | pwm | adc | dac | task | queue | mutex | semaphore | wifi | net | http | httpd
  | mdns | sc | tls | wsc | uart | spi | i2c | can | rmt | ble
deriving DecidableEq

def apiBindingC : List LuaModule :=
  [.os, .fs, .gpio, .pwm, .adc, .dac, .task, .queue, .mutex, .semaphore, .wifi, .net, .http, .httpd,
    .mdns, .sc, .tls, .wsc, .uart, .spi, .i2c, .can, .rmt, .ble]

structure Device where
  services : EspServices
  /-- `g_net_inited` -/
  netInited : Bool
deriving DecidableEq

inductive DeviceEvent where
  | openModule (m : LuaModule)
  | netInit
  /-- anything else: nothing but the two functions touches these services -/
  | other
deriving DecidableEq

namespace Device

def luaOpen (d : Device) : LuaModule → Option Device
  | .wifi => (wifiInitCore d.services).map fun s => { d with services := s }
  | _ => some d

/-- The first lines of `L_NET_INIT`: any other error of `nvs_flash_init` is ignored. -/
def nvsRecover (s : EspServices) : Option EspServices :=
  let r := s.nvsFlashInit
  if r.1 = .nvsNoFreePages ∨ r.1 = .nvsNewVersionFound then
    (check r.2.nvsFlashErase).bind fun s => check s.nvsFlashInit
  else some r.2

def lNetInit (d : Device) : Option Device :=
  if d.netInited then some d
  else
    (nvsRecover d.services).bind fun s =>
    (check s.netifInit).bind fun s =>
    (check s.eventLoopCreateDefault).map fun s => ⟨s, true⟩

def step (d : Device) : DeviceEvent → Option Device
  | .openModule m => d.luaOpen m
  | .netInit => d.lNetInit
  | .other => some d

end Device

def device (nvs : NvsPartition) : Machine Device DeviceEvent where
  init := ⟨⟨nvs, false⟩, false⟩
  step := Device.step

/-- What the script does after the boot. -/
inductive ScriptCall where
  | netInit
  | other
deriving DecidableEq

def ScriptCall.event : ScriptCall → DeviceEvent
  | .netInit => .netInit
  | .other => .other

/-- The modules are opened, and then the script runs. -/
def bootAndRun (calls : List ScriptCall) : List DeviceEvent :=
  apiBindingC.map .openModule ++ calls.map ScriptCall.event

/-- No check sees an error, neither at boot nor in `net.init`. -/
def NeverAborts (nvs : NvsPartition) (calls : List ScriptCall) : Prop :=
  ∃ d, (device nvs).run (bootAndRun calls) = some d

/-! ## Boot -/

/-- The device after the boot: the event loop is there, and `net.init` does not know. -/
def booted : Device := ⟨⟨.usable, true⟩, false⟩

theorem run_boot (nvs : NvsPartition) :
    (device nvs).run (apiBindingC.map .openModule) = if nvs = .usable then some booted else none := by
  cases nvs <;> rfl

/-- After the boot the event loop cannot be created again. -/
theorem lNetInit_booted : booted.lNetInit = none := rfl

/-! ## The script -/

theorem run_script (calls : List ScriptCall) :
    (calls.map ScriptCall.event).foldlM Device.step booted =
      if .netInit ∈ calls then none else some booted := by
  induction calls with
  | nil => rfl
  | cons c calls ih =>
    rw [List.map_cons, List.foldlM_cons]
    cases c with
    | netInit =>
      rw [if_pos List.mem_cons_self]
      show booted.lNetInit.bind _ = none
      rw [lNetInit_booted, Option.bind_none]
    | other =>
      show (some booted).bind _ = _
      rw [Option.bind_some, ih]
      simp

/-- **Initialisation.**  The device does not abort exactly if NVS is usable at boot
and `net.init` is never called. -/
theorem net_init_iff (nvs : NvsPartition) (calls : List ScriptCall) :
    NeverAborts nvs calls ↔ nvs = .usable ∧ .netInit ∉ calls := by
  have hrun : (device nvs).run (bootAndRun calls) =
      ((device nvs).run (apiBindingC.map .openModule)).bind fun d =>
        (calls.map ScriptCall.event).foldlM Device.step d := by
    unfold Machine.run bootAndRun
    rw [List.foldlM_append]
    rfl
  unfold NeverAborts
  rw [hrun, run_boot]
  by_cases hnvs : nvs = .usable
  · rw [if_pos hnvs, Option.bind_some, run_script]
    by_cases hcall : .netInit ∈ calls
    · rw [if_pos hcall]
      simp [hcall]
    · rw [if_neg hcall]
      simp [hnvs, hcall]
  · rw [if_neg hnvs]
    simp [hnvs]

/-- One call of `net.init`, with NVS usable. -/
theorem net_init_aborts : ¬ ∀ nvs calls, NeverAborts nvs calls := by
  intro h
  obtain ⟨d, hd⟩ := h .usable [.netInit]
  cases hd

end CLIos
