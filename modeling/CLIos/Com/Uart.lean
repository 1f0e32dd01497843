import CLIos.Core.Shell
import CLIos.Lib.Custody
import CLIos.Lib.LuaApi
import CLIos.Lib.TextFile

/-!
# Serial ports

The handles of components/COM/com_uart.c and the console, which share the driver
of ESP-IDF.  `_UartInit` (components/SYS/sys_os.c) installs the driver on port 0
for `_ShellTask` and looks at no result; `uart.open` installs it on any port for
a handle and ends the firmware (`none`) if a call fails.  A driver is installed
on a port at most once.  `close` deletes it if the handle has `installed`, and no
other method looks at that flag.

`arrived` and `taken` record what went into the buffer of each port and came out
of it again, by a read, a flush or the end of the driver.
-/

namespace CLIos

open LuaApi Resources Runs TextFile

/-- Of the ESP32. -/
abbrev UART_NUM_MAX : Int := 3
abbrev UART_HW_FIFO_LEN : Int := 128

structure UartDriver where
  /-- the ring buffer -/
  rx : Bytes
  size : Nat

/-- `lua_uart_t`; `live` until it is collected, which does nothing else. -/
structure UartHandle where
  port : Int
  installed : Bool
  live : Bool

structure Uart where
  driver : Int → Option UartDriver
  handles : List UartHandle
  arrived : Int → Bytes
  taken : Int → Bytes
  /-- what `uart_read_bytes` has returned to `_ShellTask` -/
  console : List UartRead

inductive UartValue where
  | boolean (b : Bool)
  | integer (i : Int)
  | string (s : Bytes)
  | handle (k : Nat)
deriving DecidableEq

/-- What a call returns, or the message of the error it raises. -/
abbrev UartAnswer := Except String UartValue

namespace Uart

/-! ## The driver -/

def setDriver (s : Uart) (port : Int) (d : Option UartDriver) : Uart :=
  { s with driver := fun p => if p = port then d else s.driver p }

def setRx (s : Uart) (port : Int) (d : UartDriver) (rx : Bytes) : Uart :=
  s.setDriver port (some { d with rx := rx })

def take (s : Uart) (port : Int) (bytes : Bytes) : Uart :=
  { s with taken := fun p => if p = port then s.taken p ++ bytes else s.taken p }

/-- `uart_driver_install`; a buffer for sending may be left out with 0.  `allocated` is
whether the driver gets its buffers and its interrupt. -/
def driverInstall (s : Uart) (port rxSize txSize : Int) (allocated : Bool) : Option Uart :=
  if 0 ≤ port ∧ port < UART_NUM_MAX ∧ UART_HW_FIFO_LEN < rxSize ∧
      (txSize = 0 ∨ UART_HW_FIFO_LEN < txSize) ∧ (s.driver port).isNone ∧ allocated then
    some (s.setDriver port (some ⟨[], rxSize.toNat⟩))
  else none

/-- `uart_driver_delete`; what is in the buffer is lost. -/
def driverDelete (s : Uart) (port : Int) : Uart :=
  match s.driver port with
  | none => s
  | some d => (s.take port d.rx).setDriver port none

/-- `uart_read_bytes`: the first `n` bytes, or -1 (`none`) without a driver. -/
def readBytes (s : Uart) (port : Int) (n : Nat) : Uart × Option Bytes :=
  match s.driver port with
  | none => (s, none)
  | some d => ((s.take port (d.rx.take n)).setRx port d (d.rx.drop n), some (d.rx.take n))

/-- `uart_flush` -/
def flush (s : Uart) (port : Int) : Uart :=
  match s.driver port with
  | none => s
  | some d => (s.take port d.rx).setRx port d []

/-- Bytes from the line; what the buffer has no room for is dropped. -/
def arrive (s : Uart) (port : Int) (data : Bytes) : Uart :=
  match s.driver port with
  | none => s
  | some d =>
    let stored := data.take (d.size - d.rx.length)
    { s.setRx port d (d.rx ++ stored) with
      arrived := fun p => if p = port then s.arrived p ++ stored else s.arrived p }

/-! ## The methods -/

/-- Without a driver -1; the driver waits until it has taken all bytes. -/
def fWrite (s : Uart) (h : UartHandle) (data : Bytes) : Uart × UartAnswer :=
  (s, .ok (.integer (if (s.driver h.port).isSome then data.length else -1)))

/-- `arrives` is how many bytes there are before the time is up; there is no
memory for a negative number of bytes. -/
def fRead (s : Uart) (h : UartHandle) (len : Int) (allocated : Bool) (arrives : Nat) :
    Uart × UartAnswer :=
  if allocated = false ∨ toInt len < 0 then (s, .error "oom")
  else
    let (s, got) := s.readBytes h.port (min (toInt len).toNat arrives)
    (s, .ok (.string (got.getD [])))

def fFlush (s : Uart) (h : UartHandle) : Uart × UartAnswer := (s.flush h.port, .ok (.boolean true))

/-- `ok` if `uart_set_baudrate` takes the value. -/
def fSetBaud (s : Uart) (ok : Bool) : Option (Uart × UartAnswer) :=
  if ok then some (s, .ok (.boolean true)) else none

def setHandle (s : Uart) (k : Nat) (h : UartHandle) : Uart :=
  { s with handles := s.handles.set k h }

def fClose (s : Uart) (k : Nat) (h : UartHandle) : Uart × UartAnswer :=
  (if h.installed then (s.driverDelete h.port).setHandle k { h with installed := false } else s,
    .ok (.boolean true))

/-- `allocated` if the driver gets what it needs, `configured` if `uart_param_config` and
`uart_set_pin` take the other arguments. -/
structure OpenArgs where
  badArgument : Option String
  port : Int
  buf : Int
  allocated : Bool
  configured : Bool

def lUartOpen (s : Uart) (a : OpenArgs) : Option (Uart × UartAnswer) :=
  match a.badArgument with
  | some msg => some (s, .error msg)
  | none =>
    (s.driverInstall (toInt a.port) (toInt a.buf) (toInt a.buf) a.allocated).bind fun s =>
    if a.configured then
      some ({ s with handles := s.handles ++ [⟨toInt a.port, true, true⟩] },
        .ok (.handle s.handles.length))
    else none

/-- The read of `_ShellTask`; at most `sizeof(buffer_input)` bytes. -/
def shellRead (s : Uart) (arrives : Nat) : Uart :=
  match s.driver 0 with
  | none => { s with console := s.console ++ [.error] }
  | some d =>
    let n := min CHAR_BUFFER_SIZE arrives
    { (s.readBytes 0 n).1 with
      console := s.console ++ [.ok (d.rx.take n) (by
        rw [List.length_take]
        exact Nat.le_trans (Nat.min_le_left _ _) (Nat.min_le_left _ _))] }

/-- `_UartInit`; `made` if there is memory for the driver. -/
def start (made : Bool) : Uart where
  driver := fun p => if p = 0 ∧ made then some ⟨[], LUA_BUFFER_SIZE⟩ else none
  handles := []
  arrived := fun _ => []
  taken := fun _ => []
  console := []

end Uart

inductive UartEvent where
  | open (a : Uart.OpenArgs)
  | write (k : Nat) (data : Bytes)
  | read (k : Nat) (len : Int) (allocated : Bool) (arrives : Nat)
  | flush (k : Nat)
  | setBaud (k : Nat) (ok : Bool)
  | close (k : Nat)
  | collect (k : Nat)
  | shellRead (arrives : Nat)
  | arrive (port : Int) (data : Bytes)

namespace Uart

/-- A live handle. -/
def handle (s : Uart) (k : Nat) : Option UartHandle :=
  s.handles[k]?.bind fun h => if h.live then some h else none

def step (s : Uart) : UartEvent → Option Uart
  | .open a => (s.lUartOpen a).map Prod.fst
  | .write k data => (s.handle k).map fun h => (s.fWrite h data).1
  | .read k len allocated arrives => (s.handle k).map fun h => (s.fRead h len allocated arrives).1
  | .flush k => (s.handle k).map fun h => (s.fFlush h).1
  | .setBaud k ok => (s.handle k).bind fun _ => (s.fSetBaud ok).map Prod.fst
  | .close k => (s.handle k).map fun h => (s.fClose k h).1
  | .collect k => (s.handle k).map fun h => s.setHandle k { h with live := false }
  | .shellRead arrives => some (s.shellRead arrives)
  | .arrive port data => some (s.arrive port data)

end Uart

def uart (made : Bool) : Machine Uart UartEvent where
  init := Uart.start made
  step := Uart.step

/-! ## Who holds which port -/

/-- The port that a handle holds. -/
def UartHandle.held (h : UartHandle) : Option Int := if h.installed then some h.port else none

namespace Uart

/-- The console is the holder `none`, and handle `k` the holder `some k`. -/
def custody (made : Bool) (s : Uart) : Custody (Option Nat) Int where
  opened := {p | (s.driver p).isSome = true}
  holds
    | none => if made then some 0 else none
    | some k => s.handles[k]?.bind UartHandle.held

/-- What is in the buffer of a port. -/
def rx (s : Uart) (port : Int) : Bytes := ((s.driver port).map UartDriver.rx).getD []

structure Inv (made : Bool) (s : Uart) : Prop where
  sound : (s.custody made).Sound
  complete : (s.custody made).Complete
  /-- no handle was ever given the port of the console -/
  apart : made = true → ∀ h ∈ s.handles, h.port ≠ 0
  bytes : ∀ p, s.arrived p = s.taken p ++ s.rx p
  console : made = true → s.taken 0 = received s.console

variable {made : Bool} {s s' : Uart}

theorem custody_congr (hdriver : ∀ p, (s'.driver p).isSome = (s.driver p).isSome)
    (hheld : ∀ k : Nat, s'.handles[k]?.bind UartHandle.held = s.handles[k]?.bind UartHandle.held) :
    s'.custody made = s.custody made := by
  unfold custody
  congr 1
  · ext p
    show (s'.driver p).isSome = true ↔ (s.driver p).isSome = true
    rw [hdriver]
  · funext i
    cases i with
    | none => rfl
    | some k => exact hheld k

/-- A driver whose buffer changes is still there. -/
theorem custody_setRx {port : Int} {d : UartDriver} (hd : s.driver port = some d) (rx : Bytes)
    (hdriver : s'.driver = (s.setRx port d rx).driver) (hhandles : s'.handles = s.handles) :
    s'.custody made = s.custody made := by
  refine custody_congr (fun p => ?_) fun k => by rw [hhandles]
  rw [hdriver]
  show (if p = port then _ else s.driver p).isSome = _
  by_cases hp : p = port
  · rw [if_pos hp, hp, hd]
    rfl
  · rw [if_neg hp]

theorem driver_setDriver (port : Int) (d : Option UartDriver) (p : Int) :
    (s.setDriver port d).driver p = if p = port then d else s.driver p := rfl

theorem rx_setDriver (port : Int) (d : Option UartDriver) (p : Int) :
    (s.setDriver port d).rx p = if p = port then (d.map UartDriver.rx).getD [] else s.rx p := by
  unfold rx
  rw [driver_setDriver]
  split <;> rfl

theorem rx_of_driver {port : Int} {d : UartDriver} (hd : s.driver port = some d) :
    s.rx port = d.rx := by
  rw [rx, hd]
  rfl

/-! ## The bytes of a port -/

/-- What is taken out of a buffer is the first of what is in it. -/
theorem bytes_take (h : ∀ p, s.arrived p = s.taken p ++ s.rx p) {port : Int} {d : UartDriver}
    (hd : s.driver port = some d) {out rest : Bytes} (hsplit : d.rx = out ++ rest)
    (d' : Option UartDriver) (hd' : (d'.map UartDriver.rx).getD [] = rest) (p : Int) :
    ((s.take port out).setDriver port d').arrived p =
      ((s.take port out).setDriver port d').taken p ++ ((s.take port out).setDriver port d').rx p := by
  rw [rx_setDriver, hd']
  show s.arrived p = (if p = port then s.taken p ++ out else s.taken p) ++ _
  by_cases hp : p = port
  · rw [if_pos hp, if_pos hp, h, hp, rx_of_driver hd, hsplit, List.append_assoc]
  · rw [if_neg hp, if_neg hp]
    exact h p

/-- Bytes go out of the buffer of a port, and its driver stays. -/
theorem Inv.consume (h : Inv made s) {port : Int} (hport : made = true → port ≠ 0)
    {d : UartDriver} (hd : s.driver port = some d) {out rest : Bytes}
    (hsplit : d.rx = out ++ rest) : Inv made ((s.take port out).setRx port d rest) := by
  have hcustody : ((s.take port out).setRx port d rest).custody made = s.custody made :=
    custody_setRx hd rest rfl rfl
  refine ⟨hcustody ▸ h.sound, hcustody ▸ h.complete, h.apart, bytes_take h.bytes hd hsplit _ rfl,
    fun hmade => ?_⟩
  show (if 0 = port then _ else s.taken 0) = _
  rw [if_neg (Ne.symm (hport hmade))]
  exact h.console hmade

theorem Inv.readBytes (h : Inv made s) {port : Int} (hport : made = true → port ≠ 0) (n : Nat) :
    Inv made (s.readBytes port n).1 := by
  unfold Uart.readBytes
  cases hd : s.driver port with
  | none => exact h
  | some d => exact h.consume hport hd (List.take_append_drop n d.rx).symm

theorem Inv.flush (h : Inv made s) {port : Int} (hport : made = true → port ≠ 0) :
    Inv made (s.flush port) := by
  unfold Uart.flush
  cases hd : s.driver port with
  | none => exact h
  | some d => exact h.consume hport hd (List.append_nil _).symm

theorem Inv.arrive (h : Inv made s) (port : Int) (data : Bytes) :
    Inv made (s.arrive port data) := by
  unfold Uart.arrive
  cases hd : s.driver port with
  | none => exact h
  | some d =>
    have hcustody : ∀ (arrived : Int → Bytes) (rx : Bytes),
        custody made { s.setRx port d rx with arrived := arrived } = s.custody made :=
      fun arrived rx => custody_setRx hd rx rfl rfl
    refine ⟨hcustody _ _ ▸ h.sound, hcustody _ _ ▸ h.complete, h.apart, fun p => ?_, h.console⟩
    show (if p = port then s.arrived p ++ _ else s.arrived p) = s.taken p ++ (s.setRx port d _).rx p
    unfold Uart.setRx
    rw [rx_setDriver, h.bytes p]
    by_cases hp : p = port
    · rw [if_pos hp, if_pos hp, hp, rx_of_driver hd, List.append_assoc]
      rfl
    · rw [if_neg hp, if_neg hp]

/-! ## The console -/

/-- The driver of the console is always there. -/
theorem Inv.driver_zero (h : Inv made s) (hmade : made = true) : ∃ d, s.driver 0 = some d := by
  have hheld : (s.custody made).holds none = some 0 := by
    subst hmade
    rfl
  exact Option.isSome_iff_exists.mp (h.sound.held_open none 0 hheld)

theorem Inv.shellRead (h : Inv made s) (arrives : Nat) : Inv made (s.shellRead arrives) := by
  unfold Uart.shellRead Uart.readBytes
  cases hd : s.driver 0 with
  | none =>
    refine ⟨h.sound, h.complete, h.apart, h.bytes, fun hmade => ?_⟩
    obtain ⟨d, hd'⟩ := h.driver_zero hmade
    rw [hd] at hd'
    cases hd'
  | some d =>
    have hcustody : ((s.take 0 (d.rx.take (min CHAR_BUFFER_SIZE arrives))).setRx 0 d
        (d.rx.drop (min CHAR_BUFFER_SIZE arrives))).custody made = s.custody made :=
      custody_setRx hd _ rfl rfl
    refine ⟨hcustody ▸ h.sound, hcustody ▸ h.complete, h.apart,
      bytes_take h.bytes hd (List.take_append_drop _ d.rx).symm _ rfl, fun hmade => ?_⟩
    show (if (0 : Int) = 0 then s.taken 0 ++ _ else s.taken 0) = received (s.console ++ [_])
    rw [if_pos rfl, received_concat, h.console hmade]
    rfl

/-! ## Opening and closing -/

theorem driverInstall_eq_some {port rxSize txSize : Int} {allocated : Bool}
    (h : s.driverInstall port rxSize txSize allocated = some s') :
    s.driver port = none ∧ s' = s.setDriver port (some ⟨[], rxSize.toNat⟩) := by
  unfold driverInstall at h
  split at h
  · next hin => exact ⟨Option.isNone_iff_eq_none.mp hin.2.2.2.2.1, (Option.some.inj h).symm⟩
  · cases h

/-- The custody of a port that gets a driver, with a handle for it. -/
theorem custody_open (s : Uart) (made : Bool) (port : Int) (d : UartDriver) :
    custody made { s.setDriver port (some d) with handles := s.handles ++ [⟨port, true, true⟩] } =
      (s.custody made).put (some s.handles.length) (some port) := by
  unfold custody Custody.put
  congr 1
  · ext p
    show (if p = port then some d else s.driver p).isSome = true ↔ _ ∨ some port = some p
    by_cases hp : p = port
    · simp [hp]
    · simp [hp, Ne.symm hp]
  · funext i
    rw [Function.update_apply]
    cases i with
    | none => rfl
    | some k =>
      show (s.handles ++ [_])[k]?.bind UartHandle.held = _
      by_cases hk : k = s.handles.length
      · rw [hk, if_pos rfl, List.getElem?_concat_length]
        rfl
      · rw [if_neg (by simpa using hk)]
        rcases Nat.lt_or_ge k s.handles.length with hlt | hge
        · rw [List.getElem?_append_left hlt]
        · show _ = s.handles[k]?.bind UartHandle.held
          rw [List.getElem?_eq_none (by rw [List.length_append, List.length_singleton]; omega),
            List.getElem?_eq_none (by omega)]

theorem Inv.open (h : Inv made s) {a : OpenArgs} {r : Uart × UartAnswer}
    (hs : s.lUartOpen a = some r) : Inv made r.1 := by
  unfold lUartOpen at hs
  cases hbad : a.badArgument with
  | some msg =>
    simp only [hbad] at hs
    obtain rfl := Option.some.inj hs
    exact h
  | none =>
    simp only [hbad] at hs
    obtain ⟨s₁, h₁, hs⟩ := Option.bind_eq_some_iff.mp hs
    obtain ⟨hnone, rfl⟩ := driverInstall_eq_some h₁
    split at hs
    · obtain rfl := Option.some.inj hs
      have hfresh : ∀ p, some (toInt a.port) = some p → p ∉ (s.custody made).opened := by
        intro p hp hopen
        obtain rfl := Option.some.inj hp
        have hsome : (s.driver (toInt a.port)).isSome = true := hopen
        rw [hnone] at hsome
        cases hsome
      have hplace : (s.custody made).holds (some s.handles.length) = none := by
        show s.handles[s.handles.length]?.bind _ = none
        rw [List.getElem?_eq_none (Nat.le_refl _)]
        rfl
      have hcustody := s.custody_open made (toInt a.port) ⟨[], (toInt a.buf).toNat⟩
      refine ⟨?_, ?_, fun hmade k hk => ?_, fun p => ?_, h.console⟩
      · exact hcustody ▸ h.sound.put hfresh
      · exact hcustody ▸ (Custody.complete_put_iff h.sound h.complete hfresh).mpr hplace
      · rcases List.mem_append.mp hk with hk | hk
        · exact h.apart hmade k hk
        · rw [List.mem_singleton.mp hk]
          rintro (hzero : toInt a.port = 0)
          obtain ⟨d, hd⟩ := h.driver_zero hmade
          rw [hzero, hd] at hnone
          cases hnone
      · show s.arrived p = s.taken p ++ (s.setDriver _ _).rx p
        rw [rx_setDriver, h.bytes p]
        by_cases hp : p = toInt a.port
        · -- a port without a driver has nothing in its buffer
          rw [if_pos hp, hp, rx, hnone]
          rfl
        · rw [if_neg hp]
    · cases hs

/-- The custody when handle `k` gives its port back. -/
theorem custody_close (made : Bool) {k : Nat} {h : UartHandle} (hk : s.handles[k]? = some h)
    (hin : h.installed = true) (taken : Int → Bytes) :
    custody made { s.setDriver h.port none with
      handles := s.handles.set k { h with installed := false }
      taken := taken } = (s.custody made).release (some k) := by
  have hlt := (List.getElem?_eq_some_iff.mp hk).1
  have hheld : (s.custody made).holds (some k) = some h.port := by
    show s.handles[k]?.bind UartHandle.held = _
    rw [hk, Option.bind_some, UartHandle.held, if_pos hin]
  unfold Custody.release
  rw [hheld]
  unfold custody
  congr 1
  · ext p
    show (if p = h.port then none else s.driver p).isSome = true ↔ _ ∧ ¬ some h.port = some p
    by_cases hp : p = h.port
    · simp [hp]
    · simp [hp, Ne.symm hp]
  · funext i
    rw [Function.update_apply]
    cases i with
    | none => rfl
    | some j =>
      show (s.handles.set k _)[j]?.bind UartHandle.held = _
      by_cases hj : j = k
      · rw [hj, if_pos rfl, List.getElem?_set_self hlt]
        rfl
      · rw [if_neg (by simpa using hj), List.getElem?_set_ne (Ne.symm hj)]

theorem Inv.close (h : Inv made s) {k : Nat} {hd : UartHandle} (hk : s.handles[k]? = some hd) :
    Inv made (s.fClose k hd).1 := by
  unfold fClose
  by_cases hin : hd.installed = true
  · have hheld : (s.custody made).holds (some k) = some hd.port := by
      show s.handles[k]?.bind UartHandle.held = _
      rw [hk, Option.bind_some, UartHandle.held, if_pos hin]
    obtain ⟨d, hdriver⟩ := Option.isSome_iff_exists.mp (h.sound.held_open _ _ hheld)
    have hport : made = true → hd.port ≠ 0 := fun hmade =>
      h.apart hmade hd (List.mem_of_getElem? hk)
    rw [if_pos hin]
    show Inv made ((s.driverDelete hd.port).setHandle k _)
    unfold driverDelete
    rw [hdriver]
    have hcustody := custody_close made hk hin (s.take hd.port d.rx).taken
    refine ⟨hcustody ▸ h.sound.release, hcustody ▸ h.complete.release, fun hmade h' hh' => ?_,
      bytes_take h.bytes hdriver (List.append_nil _).symm none rfl, fun hmade => ?_⟩
    · rcases List.mem_or_eq_of_mem_set hh' with hh' | rfl
      · exact h.apart hmade h' hh'
      · exact hport hmade
    · show (if 0 = hd.port then _ else s.taken 0) = _
      rw [if_neg (Ne.symm (hport hmade))]
      exact h.console hmade
  · rw [if_neg hin]
    exact h

theorem Inv.collect (h : Inv made s) {k : Nat} {hd : UartHandle} (hk : s.handles[k]? = some hd) :
    Inv made (s.setHandle k { hd with live := false }) := by
  have hlt := (List.getElem?_eq_some_iff.mp hk).1
  have hcustody : (s.setHandle k { hd with live := false }).custody made = s.custody made := by
    refine custody_congr (fun p => rfl) fun j => ?_
    show (s.handles.set k _)[j]?.bind UartHandle.held = _
    by_cases hj : j = k
    · rw [hj, List.getElem?_set_self hlt, hk]
      rfl
    · rw [List.getElem?_set_ne (Ne.symm hj)]
  refine ⟨hcustody ▸ h.sound, hcustody ▸ h.complete, fun hmade h' hh' => ?_, h.bytes, h.console⟩
  rcases List.mem_or_eq_of_mem_set hh' with hh' | rfl
  · exact h.apart hmade h' hh'
  · exact h.apart hmade hd (List.mem_of_getElem? hk)

/-! ## Every run -/

theorem handle_eq_some {k : Nat} {h : UartHandle} (hk : s.handle k = some h) :
    s.handles[k]? = some h := by
  obtain ⟨h', hh', hlive⟩ := Option.bind_eq_some_iff.mp hk
  split at hlive
  · rwa [← Option.some.inj hlive]
  · cases hlive

theorem Inv.read (h : Inv made s) {k : Nat} {hd : UartHandle} (hk : s.handles[k]? = some hd)
    (len : Int) (allocated : Bool) (arrives : Nat) :
    Inv made (s.fRead hd len allocated arrives).1 := by
  unfold fRead
  split
  · exact h
  · exact h.readBytes (fun hmade => h.apart hmade hd (List.mem_of_getElem? hk)) _

theorem Inv.step (h : Inv made s) {e : UartEvent} (hs : s.step e = some s') : Inv made s' := by
  cases e with
  | «open» a =>
    obtain ⟨r, hr, rfl⟩ := Option.map_eq_some_iff.mp hs
    exact h.open hr
  | write k data =>
    obtain ⟨hd, -, rfl⟩ := Option.map_eq_some_iff.mp hs
    exact h
  | read k len allocated arrives =>
    obtain ⟨hd, hk, rfl⟩ := Option.map_eq_some_iff.mp hs
    exact h.read (handle_eq_some hk) len allocated arrives
  | flush k =>
    obtain ⟨hd, hk, rfl⟩ := Option.map_eq_some_iff.mp hs
    exact h.flush fun hmade => h.apart hmade hd (List.mem_of_getElem? (handle_eq_some hk))
  | setBaud k ok =>
    obtain ⟨hd, -, hs⟩ := Option.bind_eq_some_iff.mp hs
    obtain ⟨r, hr, rfl⟩ := Option.map_eq_some_iff.mp hs
    unfold fSetBaud at hr
    split at hr <;> cases hr
    exact h
  | close k =>
    obtain ⟨hd, hk, rfl⟩ := Option.map_eq_some_iff.mp hs
    exact h.close (handle_eq_some hk)
  | collect k =>
    obtain ⟨hd, hk, rfl⟩ := Option.map_eq_some_iff.mp hs
    exact h.collect (handle_eq_some hk)
  | shellRead arrives =>
    obtain rfl := Option.some.inj hs
    exact h.shellRead arrives
  | arrive port data =>
    obtain rfl := Option.some.inj hs
    exact h.arrive port data

theorem inv_start (made : Bool) : Inv made (start made) where
  sound := by
    refine ⟨fun i p hi => ?_, fun i j p hi hj => ?_⟩
    · cases i with
      | none =>
        cases made with
        | true =>
          obtain rfl := Option.some.inj hi
          rfl
        | false => cases hi
      | some k => cases hi
    · cases i with
      | none =>
        cases j with
        | none => rfl
        | some k => cases hj
      | some k => cases hi
  complete := by
    intro p hp
    have hp : (if p = 0 ∧ made = true then some (⟨[], 256⟩ : UartDriver) else none).isSome = true :=
      hp
    split at hp
    · next hin =>
      refine ⟨none, ?_⟩
      show (if made = true then some (0 : Int) else none) = some p
      rw [if_pos hin.2, hin.1]
    · cases hp
  apart := by
    intro _ h hh
    cases hh
  bytes := by
    intro p
    show [] = [] ++ (((if p = 0 ∧ made = true then some (⟨[], 256⟩ : UartDriver) else none).map
      UartDriver.rx).getD [])
    split <;> rfl
  console := fun _ => rfl

/-- A port has a driver exactly if the console or a handle has it, and has one
holder at most; `open` survives exactly where there is none. -/
structure Owned (made : Bool) (s : Uart) : Prop where
  busy : ∀ p, (s.driver p).isSome = true ↔ p = 0 ∧ made = true ∨
    ∃ (k : Nat) (h : UartHandle), s.handles[k]? = some h ∧ h.installed = true ∧ h.port = p
  one : ∀ (k k' : Nat) (h h' : UartHandle), s.handles[k]? = some h → s.handles[k']? = some h' →
    h.installed = true → h'.installed = true → h.port = h'.port → k = k'
  apart : made = true → ∀ h ∈ s.handles, h.port ≠ 0

theorem Inv.owned (h : Inv made s) : s.Owned made := by
  have hheld : ∀ (k : Nat) (hd : UartHandle), s.handles[k]? = some hd → hd.installed = true →
      (s.custody made).holds (some k) = some hd.port := by
    intro k hd hk hin
    show s.handles[k]?.bind UartHandle.held = _
    rw [hk, Option.bind_some, UartHandle.held, if_pos hin]
  refine ⟨fun p => ⟨fun hp => ?_, ?_⟩, fun k k' hd hd' hk hk' hin hin' hport => ?_, h.apart⟩
  · obtain ⟨i, hi⟩ := h.complete p hp
    cases i with
    | none =>
      have hi : (if made = true then some (0 : Int) else none) = some p := hi
      split at hi
      · next hmade => exact Or.inl ⟨(Option.some.inj hi).symm, hmade⟩
      · cases hi
    | some k =>
      obtain ⟨hd, hk, hheld⟩ := Option.bind_eq_some_iff.mp hi
      unfold UartHandle.held at hheld
      split at hheld
      · next hin => exact Or.inr ⟨k, hd, hk, hin, Option.some.inj hheld⟩
      · cases hheld
  · rintro (⟨rfl, hmade⟩ | ⟨k, hd, hk, hin, rfl⟩)
    · obtain ⟨d, hd⟩ := h.driver_zero hmade
      rw [hd]
      rfl
    · exact h.sound.held_open _ _ (hheld k hd hk hin)
  · have hsame := h.sound.unshared (some k) (some k') hd.port (hheld k hd hk hin)
      (hport ▸ hheld k' hd' hk' hin')
    exact Option.some.inj hsame

theorem run_inv (es : List UartEvent) : (uart made).Always (Inv made) es :=
  Machine.always_of_step (inv_start made) (fun _ _ _ h hs => h.step hs) es

/-- The next `uart.open` ends the firmware. -/
def OpenAborts (s : Uart) (a : OpenArgs) : Prop := s.lUartOpen a = none

/-- The port is no port, or has a holder, or the driver does not get what it needs, or
the buffers or the other arguments are refused. -/
def Refused (made : Bool) (s : Uart) (a : OpenArgs) : Prop :=
  ¬ (0 ≤ toInt a.port ∧ toInt a.port < UART_NUM_MAX) ∨
    (toInt a.port = 0 ∧ made = true ∨
      ∃ (k : Nat) (h : UartHandle), s.handles[k]? = some h ∧ h.installed = true ∧
        h.port = toInt a.port) ∨
    ¬ (UART_HW_FIFO_LEN < toInt a.buf) ∨ a.allocated = false ∨ a.configured = false

theorem Owned.openAborts_iff (h : s.Owned made) (a : OpenArgs) (hbad : a.badArgument = none) :
    s.OpenAborts a ↔ Refused made s a := by
  unfold OpenAborts Refused lUartOpen
  rw [← h.busy (toInt a.port)]
  simp only [hbad, driverInstall]
  cases hdriver : s.driver (toInt a.port) with
  | some d => simp
  | none =>
    by_cases hport : 0 ≤ toInt a.port ∧ toInt a.port < UART_NUM_MAX
    · by_cases hbuf : UART_HW_FIFO_LEN < toInt a.buf
      · cases hmem : a.allocated with
        | false => simp
        | true =>
          simp only [hport, hbuf, Option.isNone_none, or_true, and_self, if_true,
            Option.bind_some]
          cases a.configured <;> simp
      · simp [hbuf]
    · rw [if_neg fun hin => hport ⟨hin.1, hin.2.1⟩]
      simp [hport]

end Uart

/-- **Who has a port.**  In every run a port has a driver exactly if the console
has it or one handle that was not closed, and `uart.open` ends the firmware
exactly on such a port, without the memory for a driver, or for arguments that the
driver refuses; a handle never has the port of the console. -/
theorem uart_ports_owned (made : Bool) (es : List UartEvent) :
    (uart made).Always (fun s => s.Owned made ∧
      ∀ a : Uart.OpenArgs, a.badArgument = none → (s.OpenAborts a ↔ s.Refused made a)) es :=
  Machine.always_mono
    (fun _ h => ⟨h.owned, fun a hbad => h.owned.openAborts_iff a hbad⟩) (Uart.run_inv es)

/-- **The bytes of the console.**  Whatever Lua code does with serial ports, the
console task reads exactly the bytes that came in on port 0, in their order. -/
theorem uart_console_bytes (es : List UartEvent) :
    (uart true).Always (fun s => s.arrived 0 = received s.console ++ s.rx 0) es :=
  Machine.always_mono (fun _ h => by rw [← h.console rfl]; exact h.bytes 0) (Uart.run_inv es)

end CLIos
