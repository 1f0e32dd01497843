import CLIos.Lib.Ledger
import CLIos.Lib.Machine
import CLIos.Lib.TextFile

/-!
# Handles of the peripheral libraries

The handle types i2c.bus, i2c.dev (components/COM/com_i2c.c), spi.dev
(com_spi.c), rmt.tx (com_rmt.c) and hw.adc.ch (components/HDW/hdw_adc.c), as they
are compiled with the drivers of ESP-IDF 5.

A driver object is named by the handle whose constructor made it.  A handle of
the first three types keeps its pointer for good; the other two have a pointer
that may be NULL for each of their objects.  A device of an I2C bus is used
through its bus.

`accesses` lists which objects the driver calls of a method use or release, in
order, and the ledger records them.  A driver may refuse to release an object,
which is then only used.  `ESP_ERROR_CHECK` of a call that fails ends the run.
Lua code can call the method of one type with a handle of another, as in
`getmetatable(ch).__gc(dev)`.
-/

namespace CLIos

open Resources Runs TextFile

inductive PeriphPart where
  | bus
  | device
  | encoder
  | channel
  | unit
  | cali
deriving DecidableEq

structure PeriphObject where
  handle : Nat
  part : PeriphPart
deriving DecidableEq

inductive PeriphHandle where
  | i2cBus
  /-- `bus` is the handle it was added to -/
  | i2cDev (bus : Nat)
  | spiDev
  /-- whether `enc` and `ch` are set -/
  | rmtTx (enc ch : Bool)
  /-- whether `unit` and `cali` are set, and `cali_enabled` -/
  | adcCh (unit cali caliEnabled : Bool)
deriving DecidableEq

inductive PeriphValue where
  | boolean (b : Bool)
  | integer (i : Int)
  | string (s : Bytes)
  /-- the new device -/
  | device
  | nothing
  /-- `nil, "no_cali"` -/
  | noCali
deriving DecidableEq

/-- What a method returns, or the message of the error it raises. -/
abbrev PeriphAnswer := Except String PeriphValue

/-- What a method does to its handle `k`. -/
structure PeriphOutcome where
  handle : PeriphHandle
  accesses : List (Access PeriphObject)
  /-- the object of the handle is released -/
  spends : Bool
  /-- a new handle -/
  made : Option PeriphHandle
  /-- `none` if a check ends the firmware -/
  answer : Option PeriphAnswer

/-- A transfer into a buffer: how the arguments are checked, whether there is
memory for it, and what the driver delivers. -/
structure Transfer where
  badArgument : Option String
  allocated : Bool
  data : Option Bytes

/-- The second argument of `send_raw`. -/
inductive RmtArg where
  | string
  /-- `n` entries; `badEntry` is the error for one that is no integer -/
  | table (n : Nat) (allocated : Bool) (badEntry : Option String)
  | other

inductive PeriphMethod where
  | i2cBusClose (refused : Bool)
  | i2cBusAddDev (badArgument : Option String) (ok : Bool)
  | i2cDevTx (badArgument : Option String) (ok : Bool)
  | i2cDevRx (t : Transfer)
  | i2cDevWrrd (t : Transfer)
  | i2cDevRemove (refused : Bool)
  | spiDevTxrx (t : Transfer)
  | spiDevRemove (refused : Bool)
  | rmtSendRaw (arg : RmtArg) (ok : Bool)
  | rmtClose (encRefused chRefused : Bool)
  | adcReadRaw (raw : Option Int)
  | adcReadMv (raw mv : Option Int)
  | adcClose (unitRefused caliRefused : Bool)
  /-- `__gc` called by Lua code -/
  | adcGc (unitRefused caliRefused : Bool)

/-- The name of the metatable. -/
def PeriphHandle.typeName : PeriphHandle → String
  | .i2cBus => "i2c.bus"
  | .i2cDev _ => "i2c.dev"
  | .spiDev => "spi.dev"
  | .rmtTx _ _ => "rmt.tx"
  | .adcCh _ _ _ => "hw.adc.ch"

/-- The metatable that has the method. -/
def PeriphMethod.typeName : PeriphMethod → String
  | .i2cBusClose _ | .i2cBusAddDev _ _ => "i2c.bus"
  | .i2cDevTx _ _ | .i2cDevRx _ | .i2cDevWrrd _ | .i2cDevRemove _ => "i2c.dev"
  | .spiDevTxrx _ | .spiDevRemove _ => "spi.dev"
  | .rmtSendRaw _ _ | .rmtClose _ _ => "rmt.tx"
  | .adcReadRaw _ | .adcReadMv _ _ | .adcClose _ _ | .adcGc _ _ => "hw.adc.ch"

/-- The method calls `luaL_checkudata`; `l_adc_channel_gc` calls `lua_touserdata`. -/
def PeriphMethod.checked : PeriphMethod → Bool
  | .adcGc _ _ => false
  | _ => true

namespace PeriphHandle

/-! ## What the methods share -/

/-- A driver call that releases `o`, unless the driver refuses. -/
def releasing (o : PeriphObject) (refused : Bool) : Access PeriphObject :=
  if refused then .touch o else .release o

/-- The method ends before its driver call. -/
def raises (h : PeriphHandle) (msg : String) : PeriphOutcome := ⟨h, [], false, none, some (.error msg)⟩

def transfer (h : PeriphHandle) (objects : List PeriphObject) (t : Transfer) : PeriphOutcome :=
  match t.badArgument with
  | some msg => h.raises msg
  | none =>
    if t.allocated = false then h.raises "oom"
    else ⟨h, objects.map .touch, false, none, t.data.map fun data => .ok (.string data)⟩

/-! ## I2C -/

def fI2cBusClose (k : Nat) (refused : Bool) : PeriphOutcome :=
  ⟨i2cBus, [releasing ⟨k, .bus⟩ refused], !refused, none, some (.ok (.boolean true))⟩

def fI2cBusAddDev (k : Nat) (badArgument : Option String) (ok : Bool) : PeriphOutcome :=
  match badArgument with
  | some msg => i2cBus.raises msg
  | none =>
    if ok then ⟨i2cBus, [.touch ⟨k, .bus⟩], false, some (i2cDev k), some (.ok .device)⟩
    else ⟨i2cBus, [.touch ⟨k, .bus⟩], false, none, none⟩

def fI2cDevTx (k bus : Nat) (badArgument : Option String) (ok : Bool) : PeriphOutcome :=
  match badArgument with
  | some msg => (i2cDev bus).raises msg
  | none => ⟨i2cDev bus, [.touch ⟨k, .device⟩, .touch ⟨bus, .bus⟩], false, none,
      if ok then some (.ok (.boolean true)) else none⟩

def fI2cDevRx (k bus : Nat) (t : Transfer) : PeriphOutcome :=
  (i2cDev bus).transfer [⟨k, .device⟩, ⟨bus, .bus⟩] t

def fI2cDevWrrd (k bus : Nat) (t : Transfer) : PeriphOutcome :=
  (i2cDev bus).transfer [⟨k, .device⟩, ⟨bus, .bus⟩] t

def fI2cDevRemove (k bus : Nat) (refused : Bool) : PeriphOutcome :=
  ⟨i2cDev bus, [.touch ⟨bus, .bus⟩, releasing ⟨k, .device⟩ refused], !refused, none,
    some (.ok (.boolean true))⟩

/-! ## SPI -/

def fSpiDevTxrx (k : Nat) (t : Transfer) : PeriphOutcome := spiDev.transfer [⟨k, .device⟩] t

def fSpiDevRemove (k : Nat) (refused : Bool) : PeriphOutcome :=
  ⟨spiDev, [releasing ⟨k, .device⟩ refused], !refused, none, some (.ok (.boolean true))⟩

/-! ## RMT -/

/-- A NULL among the two handles is refused by `rmt_transmit`. -/
def rmtTransmit (k : Nat) (enc ch ok : Bool) : PeriphOutcome where
  handle := rmtTx enc ch
  accesses := (if ch then [.touch ⟨k, .channel⟩] else []) ++
    if enc then [.touch ⟨k, .encoder⟩] else []
  spends := false
  made := none
  answer := if enc && ch && ok then some (.ok (.boolean true)) else none

def fSendRaw (k : Nat) (enc ch : Bool) (arg : RmtArg) (ok : Bool) : PeriphOutcome :=
  match arg with
  | .string => rmtTransmit k enc ch ok
  | .table n allocated badEntry =>
    if n = 0 ∨ n % 2 = 1 then
      (rmtTx enc ch).raises "table must contain even count: \x7bhi,lo,...\x7d"
    else if allocated = false then (rmtTx enc ch).raises "oom"
    else
      match badEntry with
      | some msg => (rmtTx enc ch).raises msg
      | none => rmtTransmit k enc ch ok
  | .other => (rmtTx enc ch).raises "arg 2 must be string or table"

def fClose (k : Nat) (enc ch encRefused chRefused : Bool) : PeriphOutcome where
  handle := rmtTx false false
  accesses := (if enc then [releasing ⟨k, .encoder⟩ encRefused] else []) ++
    if ch then [.touch ⟨k, .channel⟩, releasing ⟨k, .channel⟩ chRefused] else []
  spends := false
  made := none
  answer := some (.ok (.boolean true))

/-! ## ADC -/

def adcChannelGc (k : Nat) (unit cali caliEnabled unitRefused caliRefused : Bool) :
    PeriphOutcome where
  handle := adcCh false false caliEnabled
  accesses := (if unit then [releasing ⟨k, .unit⟩ unitRefused] else []) ++
    if cali then [releasing ⟨k, .cali⟩ caliRefused] else []
  spends := false
  made := none
  answer := some (.ok .nothing)

/-- `adc_oneshot_read` of NULL fails. -/
def adcRead (k : Nat) (unit cali caliEnabled : Bool) (raw : Option Int)
    (use : Int → List (Access PeriphObject) × Option PeriphValue) : PeriphOutcome :=
  match unit, raw with
  | true, some raw => ⟨adcCh unit cali caliEnabled, .touch ⟨k, .unit⟩ :: (use raw).1, false, none,
      (use raw).2.map .ok⟩
  | _, _ => ⟨adcCh unit cali caliEnabled, if unit then [.touch ⟨k, .unit⟩] else [], false, none, none⟩

def adcReadRaw (k : Nat) (unit cali caliEnabled : Bool) (raw : Option Int) : PeriphOutcome :=
  adcRead k unit cali caliEnabled raw fun raw => ([], some (.integer raw))

/-- `adc_cali_raw_to_voltage` of NULL fails. -/
def adcReadMv (k : Nat) (unit cali caliEnabled : Bool) (raw mv : Option Int) : PeriphOutcome :=
  adcRead k unit cali caliEnabled raw fun _ =>
  if caliEnabled then
    if cali then ([.touch ⟨k, .cali⟩], mv.map .integer) else ([], none)
  else ([], some .noCali)

def adcClose (k : Nat) (unit cali caliEnabled unitRefused caliRefused : Bool) : PeriphOutcome :=
  { adcChannelGc k unit cali caliEnabled unitRefused caliRefused with
    answer := some (.ok (.boolean true)) }

/-- The method, called with a handle of its own type. -/
def outcome (k : Nat) : PeriphHandle → PeriphMethod → Option PeriphOutcome
  | .i2cBus, .i2cBusClose refused => some (fI2cBusClose k refused)
  | .i2cBus, .i2cBusAddDev badArgument ok => some (fI2cBusAddDev k badArgument ok)
  | .i2cDev bus, .i2cDevTx badArgument ok => some (fI2cDevTx k bus badArgument ok)
  | .i2cDev bus, .i2cDevRx t => some (fI2cDevRx k bus t)
  | .i2cDev bus, .i2cDevWrrd t => some (fI2cDevWrrd k bus t)
  | .i2cDev bus, .i2cDevRemove refused => some (fI2cDevRemove k bus refused)
  | .spiDev, .spiDevTxrx t => some (fSpiDevTxrx k t)
  | .spiDev, .spiDevRemove refused => some (fSpiDevRemove k refused)
  | .rmtTx enc ch, .rmtSendRaw arg ok => some (fSendRaw k enc ch arg ok)
  | .rmtTx enc ch, .rmtClose encRefused chRefused => some (fClose k enc ch encRefused chRefused)
  | .adcCh unit cali enabled, .adcReadRaw raw => some (adcReadRaw k unit cali enabled raw)
  | .adcCh unit cali enabled, .adcReadMv raw mv => some (adcReadMv k unit cali enabled raw mv)
  | .adcCh unit cali enabled, .adcClose unitRefused caliRefused =>
    some (adcClose k unit cali enabled unitRefused caliRefused)
  | .adcCh unit cali enabled, .adcGc unitRefused caliRefused =>
    some (adcChannelGc k unit cali enabled unitRefused caliRefused)
  | _, _ => none

end PeriphHandle

structure Periph where
  handles : List PeriphHandle
  /-- the handles that were collected -/
  collected : List Nat
  /-- the handles whose object was released by `close` or `remove` -/
  spent : List Nat
  aborted : Bool
  ledger : Ledger PeriphObject

/-- `L_I2C_BUS_NEW`, `L_SPI_ADD_DEVICE`, `L_RMT_TX_NEW`, `l_adc_channel` -/
inductive PeriphConstructor where
  | i2cBusNew
  | spiAddDevice
  | rmtTxNew
  /-- whether a calibration was wanted and made -/
  | adcChannel (cali : Bool)

def PeriphConstructor.handle : PeriphConstructor → PeriphHandle
  | i2cBusNew => .i2cBus
  | spiAddDevice => .spiDev
  | rmtTxNew => .rmtTx true true
  | adcChannel cali => .adcCh true cali cali

inductive PeriphEvent where
  /-- `ok` if the checks of the constructor pass -/
  | new (c : PeriphConstructor) (ok : Bool)
  | method (k : Nat) (m : PeriphMethod)
  /-- the garbage collector frees the handle; the refusals are those in `__gc` -/
  | collect (k : Nat) (unitRefused caliRefused : Bool)

namespace Periph

def apply (s : Periph) (k : Nat) (o : PeriphOutcome) : Periph where
  handles := s.handles.set k o.handle ++ o.made.toList
  collected := s.collected
  spent := if o.spends then k :: s.spent else s.spent
  aborted := o.answer.isNone
  ledger := s.ledger.record o.accesses

def stepNew (s : Periph) (c : PeriphConstructor) (ok : Bool) : Periph :=
  if ok then { s with handles := s.handles ++ [c.handle] } else { s with aborted := true }

def stepMethod (s : Periph) (k : Nat) (m : PeriphMethod) : Option Periph :=
  s.handles[k]?.bind fun h =>
  if k ∈ s.collected then none
  else
    match h.outcome k m with
    | some o => some (s.apply k o)
    -- a handle of another type: `luaL_checkudata` raises an error; without it the
    -- call takes the handle's memory for a channel, which has no defined effect
    | none => if m.checked then some s else none

/-- Only hw.adc.ch has a `__gc`. -/
def stepCollect (s : Periph) (k : Nat) (unitRefused caliRefused : Bool) : Option Periph :=
  s.handles[k]?.bind fun h =>
  if k ∈ s.collected then none
  else
    match h with
    | .adcCh unit cali enabled =>
      let s := s.apply k (PeriphHandle.adcChannelGc k unit cali enabled unitRefused caliRefused)
      some { s with collected := k :: s.collected }
    | _ => some { s with collected := k :: s.collected }

def step (s : Periph) (e : PeriphEvent) : Option Periph :=
  if s.aborted then none
  else
    match e with
    | .new c ok => some (s.stepNew c ok)
    | .method k m => s.stepMethod k m
    | .collect k unitRefused caliRefused => s.stepCollect k unitRefused caliRefused

end Periph

def periph : Machine Periph PeriphEvent where
  init := ⟨[], [], [], false, Ledger.empty⟩
  step := Periph.step

end CLIos
