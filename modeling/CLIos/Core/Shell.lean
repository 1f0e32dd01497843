import CLIos.Lib.CArray
import CLIos.Lib.Machine
import CLIos.Lib.Text

/-!
# The console task

`shellTask` is the loop of `_ShellTask` (main/Core_Level.c), one step for each
result of `uart_read_bytes`.  `bufferInput` receives every read from its first
cell on, and is at the same time where the unfinished line is kept: the read
cursor `i` and the write cursor `index` move over the same cells.  An access
outside a buffer makes the step `none`.

A finished line is copied into the row of `bufferPerline` that is not active,
the row becomes the active one and the Lua task is notified; `published` records
the lines handed over so.
-/

namespace CLIos

open CMem Runs Text

/-- `CHAR_BUFFER_SIZE` and `LUA_BUFFER_SIZE` (components/global/global.h). -/
abbrev CHAR_BUFFER_SIZE : Nat := 64
abbrev LUA_BUFFER_SIZE : Nat := 256

/-- What `uart_read_bytes` returns: an error, or at most a buffer of bytes. -/
inductive UartRead where
  | error
  | ok (bytes : List UInt8) (fits : bytes.length ≤ CHAR_BUFFER_SIZE)
deriving DecidableEq

/-- The bytes that a read stores; the loop over `len < 0` runs no round. -/
def UartRead.data : UartRead → List UInt8
  | .error => []
  | .ok bytes _ => bytes

theorem UartRead.length_data_le (r : UartRead) : r.data.length ≤ 64 := by
  cases r with
  | error => exact Nat.zero_le _
  | ok bytes fits => exact fits

/-- `'\r'` or `'\n'`. -/
def isEol (c : UInt8) : Bool := c == 13 || c == 10

structure Shell where
  bufferInput : CArray UInt8 CHAR_BUFFER_SIZE
  /-- `uint8_t`; at most 63, since it grows only below `CHAR_BUFFER_SIZE - 1` -/
  index : Nat
  activeIndex : Bool
  bufferPerline : Bool → CArray UInt8 CHAR_BUFFER_SIZE
  bufferPerlineLen : Bool → Nat
  stopFlag : Bool
  /-- the lines notified to the Lua task so far -/
  published : List (List UInt8)

namespace Shell

/-- The globals are zero; `bufferInput` starts with whatever the stack held. -/
def start (stack : CArray UInt8 CHAR_BUFFER_SIZE) : Shell where
  bufferInput := stack
  index := 0
  activeIndex := false
  bufferPerline := fun _ => CArray.fill CHAR_BUFFER_SIZE 0
  bufferPerlineLen := fun _ => 0
  stopFlag := false
  published := []

/-- From `buffer_input[index] = '\0'` to `xTaskNotifyGive`. -/
def publish (s : Shell) : Option Shell :=
  (s.bufferInput.store s.index 0).bind fun input =>
  let next := !s.activeIndex
  let index := if CHAR_BUFFER_SIZE ≤ s.index then CHAR_BUFFER_SIZE - 1 else s.index
  ((s.bufferPerline next).memcpy 0 (input.first index)).bind fun copied =>
  (copied.store index 0).bind fun row =>
  some { s with
    bufferInput := input
    index := index
    bufferPerline := fun i => if i = next then row else s.bufferPerline i
    bufferPerlineLen := fun i => if i = next then index else s.bufferPerlineLen i
    activeIndex := next
    published := s.published ++ [row.first index] }

/-- The `tombol quit` branch, inside the branch for an end of line. -/
def quitKey (c : UInt8) (s : Shell) : Shell :=
  if c = 113 then { s with stopFlag := true } else s

/-- One round of the loop over the bytes of a read. -/
def onByte (s : Shell) (i : Nat) : Option Shell :=
  (s.bufferInput.load i).bind fun c =>
  if isEol c then
    if 0 < s.index then
      s.publish.bind fun s => some (quitKey c { s with index := 0 })
    else some s
  else if s.index < CHAR_BUFFER_SIZE - 1 then
    (s.bufferInput.store s.index c).bind fun input =>
    some { s with bufferInput := input, index := s.index + 1 }
  else some s

/-- The first `n` rounds of that loop. -/
def onBytes (s : Shell) (n : Nat) : Option Shell := (List.range n).foldlM onByte s

def onRead (s : Shell) (r : UartRead) : Option Shell :=
  (s.bufferInput.memcpy 0 r.data).bind fun input =>
  onBytes { s with bufferInput := input } r.data.length

end Shell

def shellTask (stack : CArray UInt8 CHAR_BUFFER_SIZE) : Machine Shell UartRead where
  init := Shell.start stack
  step := Shell.onRead

/-- The byte stream that a sequence of reads delivers. -/
def received (reads : List UartRead) : List UInt8 := reads.flatMap UartRead.data

/-- The lines typed: what a carriage return or newline closes, cut to 63 bytes. -/
def typedLines (stream : List UInt8) : List (List UInt8) :=
  (closedRuns isEol stream).map fun r => r.take (CHAR_BUFFER_SIZE - 1)

@[simp] theorem received_concat (reads : List UartRead) (r : UartRead) :
    received (reads ++ [r]) = received reads ++ r.data := by
  simp [received]

end CLIos
