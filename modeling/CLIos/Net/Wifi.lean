import CLIos.Lib.LuaApi
import CLIos.Lib.Machine
import CLIos.Lib.TextFile

/-!
# Wi-Fi

The Wi-Fi library (components/NET/net_wifi.c) over a driver that is a parameter:
a state, what each call answers in it and changes, and what happens in it
besides.  `ESP_ERROR_CHECK` of a call that fails ends the run, so a step with
such a call is `none`; `esp_wifi_stop` and `esp_wifi_deinit` in `wifi_deinit` and
`esp_wifi_connect` in the event handler are not checked.

Interfaces are numbered in the order of their creation, and each remembers how
often it was destroyed.  `calls` records the calls into ESP-IDF.
-/

namespace CLIos

open LuaApi Runs TextFile

inductive WifiMode where
  | sta
  | ap
  | apsta
deriving DecidableEq

namespace WifiMode

/-- `WIFI_MODE_STA`, `WIFI_MODE_AP`, `WIFI_MODE_APSTA` -/
def ofInt : Int → Option WifiMode
  | 1 => some sta
  | 2 => some ap
  | 3 => some apsta
  | _ => none

def hasSta : WifiMode → Bool
  | sta | apsta => true
  | ap => false

def hasAp : WifiMode → Bool
  | ap | apsta => true
  | sta => false

end WifiMode

inductive WifiAuth where
  | open
  | wpa2Psk
deriving DecidableEq

/-- `wifi_config_t`: `sta` or `ap`. -/
inductive WifiConfig where
  | sta (ssid password : Bytes)
  | ap (ssid : Bytes) (ssidLen channel : Nat) (authmode : WifiAuth) (password : Bytes)
deriving DecidableEq

inductive DriverCall where
  | init
  | deinit
  | setMode (m : WifiMode)
  | start
  | stop
  | setConfig (cfg : WifiConfig)
  | connect
  | disconnect
deriving DecidableEq

/-- A Wi-Fi driver; `event` is what happens in it without a call. -/
structure WifiDriver (δ ε : Type) where
  init : δ
  call : DriverCall → δ → δ × Bool
  event : ε → δ → δ

inductive NetifKind where
  | sta
  | ap
deriving DecidableEq

structure Netif where
  kind : NetifKind
  destroyed : Nat
deriving DecidableEq

inductive EspCall where
  | driver (c : DriverCall)
  | createNetif (kind : NetifKind)
  /-- `esp_netif_destroy_default_wifi` -/
  | destroyNetif (id : Option Nat)
deriving DecidableEq

structure Wifi (δ : Type) where
  wifiInit : Bool
  staNetif : Option Nat
  apNetif : Option Nat
  netifs : List Netif
  calls : List EspCall
  driver : δ

/-- What a call leaves for Lua, or the message of the error it raises. -/
abbrev WifiAnswer := Except String (Option String)

inductive WifiEvent (ε : Type) where
  | mode (mode : Option Int)
  | staStart (ssid : Bytes) (pass : Option Bytes)
  | staStop (level : Option Int)
  | apStart (ssid : Bytes) (pass : Option Bytes) (channel : Option Int)
  | apStop (level : Option Int)
  /-- `WIFI_EVENT_STA_DISCONNECTED` comes to `wifi_event_handler` -/
  | staDisconnected
  | driver (e : ε)

namespace Wifi

variable {δ ε : Type}

/-! ## Calls into ESP-IDF -/

/-- A call whose answer nobody looks at. -/
def drive (D : WifiDriver δ ε) (s : Wifi δ) (c : DriverCall) : Wifi δ :=
  { s with driver := (D.call c s.driver).1, calls := s.calls ++ [.driver c] }

/-- `ESP_ERROR_CHECK` -/
def check (D : WifiDriver δ ε) (s : Wifi δ) (c : DriverCall) : Option (Wifi δ) :=
  if (D.call c s.driver).2 then some (s.drive D c) else none

def netif (s : Wifi δ) : NetifKind → Option Nat
  | .sta => s.staNetif
  | .ap => s.apNetif

def setNetif (s : Wifi δ) (kind : NetifKind) (x : Option Nat) : Wifi δ :=
  match kind with
  | .sta => { s with staNetif := x }
  | .ap => { s with apNetif := x }

/-- `if (!netif) netif = esp_netif_create_default_wifi_..()` -/
def needNetif (s : Wifi δ) (kind : NetifKind) : Wifi δ :=
  if s.netif kind = none then
    let created : Wifi δ := { s with
      netifs := s.netifs ++ [⟨kind, 0⟩]
      calls := s.calls ++ [.createNetif kind] }
    created.setNetif kind (some s.netifs.length)
  else s

/-- `esp_netif_destroy_default_wifi`; of NULL it does nothing. -/
def destroyNetif (s : Wifi δ) (id : Option Nat) : Wifi δ :=
  { s with
    netifs :=
      match id with
      | none => s.netifs
      | some i => s.netifs.modify i fun n => { n with destroyed := n.destroyed + 1 }
    calls := s.calls ++ [.destroyNetif id] }

/-- `esp_netif_destroy_default_wifi(netif); netif = NULL;` -/
def dropNetif (s : Wifi δ) (kind : NetifKind) : Wifi δ :=
  (s.destroyNetif (s.netif kind)).setNetif kind none

/-! ## The library -/

variable (D : WifiDriver δ ε)

def wifiDeinit (s : Wifi δ) : Wifi δ :=
  if s.wifiInit then
    let s := s.drive D .stop
    let s := s.drive D .deinit
    let s := if s.staNetif.isSome then s.dropNetif .sta else s
    let s := if s.apNetif.isSome then s.dropNetif .ap else s
    { s with wifiInit := false }
  else s

/-- `if (!wifi_init) { .. }` -/
def ensureInit (s : Wifi δ) : Option (Wifi δ) :=
  if s.wifiInit then some s
  else (s.check D .init).map fun s => { s with wifiInit := true }

def needNetifs (s : Wifi δ) : WifiMode → Wifi δ
  | .sta => s.needNetif .sta
  | .ap => s.needNetif .ap
  | .apsta => (s.needNetif .sta).needNetif .ap

def lWifiMode (s : Wifi δ) (mode : Option Int) : Option (Wifi δ × WifiAnswer) :=
  (s.ensureInit D).bind fun s =>
  match WifiMode.ofInt (toInt (mode.getD 1)) with
  | none => some (s, .error "invalid wifi mode")
  | some m =>
    ((s.needNetifs m).check D (.setMode m)).bind fun s =>
    (s.check D .start).map fun s => (s, .ok none)

/-- `strncpy` of a C string into a field of `size` zeros, at most `size - 1` bytes. -/
def field (size : Nat) (src : Bytes) : Bytes :=
  let copied := (cstr src).take (size - 1)
  copied ++ List.replicate (size - copied.length) 0

def staConfig (ssid : Bytes) (pass : Option Bytes) : WifiConfig :=
  .sta (field 32 ssid) (field 64 (pass.getD []))

def lWifiStaStart (s : Wifi δ) (ssid : Bytes) (pass : Option Bytes) :
    Option (Wifi δ × WifiAnswer) :=
  (s.check D (.setConfig (staConfig ssid pass))).bind fun s =>
  (s.check D .connect).map fun s => (s, .ok none)

def lWifiStaStop (s : Wifi δ) (level : Option Int) : Option (Wifi δ × WifiAnswer) :=
  if s.wifiInit = false then some (s, .error "WiFi not initialized")
  else if toUint8 (level.getD 0) = 0 then
    (s.check D .disconnect).bind fun s =>
    (s.check D .stop).map fun s => (s, .ok (some "STA stopped"))
  else if toUint8 (level.getD 0) = 1 then
    let s := if s.staNetif.isSome then s.dropNetif .sta else s
    some (s.wifiDeinit D, .ok (some "STA deleted"))
  else some (s, .error "Invalid level: use 0=stop, 1=delete")

def apConfig (ssid : Bytes) (pass : Option Bytes) (channel : Option Int) : WifiConfig :=
  let pass := pass.getD []
  let long := 8 ≤ (cstr pass).length
  .ap (field 32 ssid) (toUint8 (cstr ssid).length) (toUint8 (channel.getD 1))
    (if long then .wpa2Psk else .open) (if long then field 64 pass else List.replicate 64 0)

def lWifiApStart (s : Wifi δ) (ssid : Bytes) (pass : Option Bytes) (channel : Option Int) :
    Option (Wifi δ × WifiAnswer) :=
  (s.check D (.setConfig (apConfig ssid pass channel))).map fun s => (s, .ok none)

/-- With level 1 it destroys the station's interface if there is an access point's. -/
def lWifiApStop (s : Wifi δ) (level : Option Int) : Option (Wifi δ × WifiAnswer) :=
  if s.wifiInit = false then some (s, .error "WiFi not initialized")
  else if toUint8 (level.getD 0) = 0 then
    (s.check D .stop).map fun s => (s, .ok (some "AP stopped"))
  else if toUint8 (level.getD 0) = 1 then
    let s := if s.apNetif.isSome then s.dropNetif .sta else s
    some (s.wifiDeinit D, .ok (some "AP deleted"))
  else some (s, .error "Invalid level: use 0=stop, 1=delete")

/-- `wifi_event_handler` tries to connect again. -/
def wifiEventHandler (s : Wifi δ) : Wifi δ := s.drive D .connect

def step (s : Wifi δ) : WifiEvent ε → Option (Wifi δ)
  | .mode mode => (s.lWifiMode D mode).map Prod.fst
  | .staStart ssid pass => (s.lWifiStaStart D ssid pass).map Prod.fst
  | .staStop level => (s.lWifiStaStop D level).map Prod.fst
  | .apStart ssid pass channel => (s.lWifiApStart D ssid pass channel).map Prod.fst
  | .apStop level => (s.lWifiApStop D level).map Prod.fst
  | .staDisconnected => some (s.wifiEventHandler D)
  | .driver e => some { s with driver := D.event e s.driver }

variable {D}

theorem check_eq_some {s s' : Wifi δ} {c : DriverCall} (h : s.check D c = some s') :
    (D.call c s.driver).2 = true ∧ s' = s.drive D c := by
  unfold check at h
  split at h
  · next hok => exact ⟨hok, (Option.some.inj h).symm⟩
  · cases h

end Wifi

def wifi {δ ε : Type} (D : WifiDriver δ ε) : Machine (Wifi δ) (WifiEvent ε) where
  init := ⟨false, none, none, [], [], D.init⟩
  step := Wifi.step D

end CLIos
