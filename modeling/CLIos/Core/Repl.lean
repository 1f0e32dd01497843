import Mathlib.Data.List.Infix
import CLIos.Core.Shell

/-!
# The Lua task: one line of the REPL

`handleLuaCommand` is the loop of `_HandleLuaCommand` (main/Core_Level.c), one
step for each line taken from the shell.  The Lua loader and the chunks it
compiles are not part of it: a `LuaTurn` says how each call ends this time.

`bufferMultiline` holds the text of the statement typed so far and
`bufferMultilineLen`, a `uint8_t`, its length.  Every cell remembers the number
of the line its byte came from, so that a text handed to the loader shows whose
bytes it is made of.  `loads` records these texts with the number of the line
that was being handled.
-/

namespace CLIos

open CMem Runs

/-- A line as the shell publishes it. -/
structure Line where
  bytes : List UInt8
  pos : 0 < bytes.length
  fits : bytes.length < CHAR_BUFFER_SIZE

/-- A byte of `buffer_multiline`, with the number of the line it came from. -/
structure Cell where
  byte : UInt8
  line : Nat
deriving DecidableEq

/-- What `luaL_loadbuffer` returns; the message is NULL if it is no string. -/
inductive LoadResult where
  | ok
  | error (err : Option (List Char))

/-- What `lua_pcall` returns: the number of results, or an error message. -/
inductive PcallResult where
  | ok (nresults : Nat)
  | error

/-- How the Lua calls end that the loop makes for one line. -/
structure LuaTurn where
  load : LoadResult
  pcall : PcallResult
  reload : LoadResult

structure ReplInput where
  line : Line
  turn : LuaTurn

def strstr (hay needle : List Char) : Bool := decide (needle <:+: hay)

/-- `err && strstr(err, "near <eof>")`. -/
def nearEof : Option (List Char) → Bool
  | none => false
  | some err => strstr err "near <eof>".toList

/-- `strstr(err, "expected")`. -/
def saysExpected : Option (List Char) → Bool
  | none => false
  | some err => strstr err "expected".toList

/-- The five ways through the body of the loop. -/
inductive ReplExit where
  | ran
  | runtimeError
  | incomplete
  | retried
  | syntaxError
deriving DecidableEq

/-- What is left of the statement: nothing, the text loaded first, or that text
with the second newline. -/
def ReplExit.keep {α : Type} (e : ReplExit) (none appended reloaded : α) : α :=
  match e with
  | .ran | .syntaxError => none
  | .runtimeError | .incomplete => appended
  | .retried => reloaded

def LuaTurn.exit (t : LuaTurn) : ReplExit :=
  match t.load with
  | .ok =>
    match t.pcall with
    | .ok _ => .ran
    | .error => .runtimeError
  | .error err =>
    if nearEof err then
      if saysExpected err then .incomplete
      else
        match t.reload with
        | .ok => .retried
        | .error _ => .syntaxError
    else .syntaxError

/-- The text is loaded a second time, with one more newline. -/
def LuaTurn.reloads (t : LuaTurn) : Bool :=
  match t.load with
  | .ok => false
  | .error err => nearEof err && !saysExpected err

structure Repl where
  bufferMultiline : CArray Cell LUA_BUFFER_SIZE
  /-- `uint8_t` -/
  bufferMultilineLen : Nat
  stopFlag : Bool
  /-- `interrupt_hook` is installed on `L` -/
  hook : Bool
  /-- `lua_gettop(L)` -/
  top : Nat
  /-- the number of lines handled -/
  lines : Nat
  /-- the texts given to `luaL_loadbuffer`, each with the line being handled -/
  loads : List (Nat × List Cell)

namespace Repl

/-- The globals are zero; the hook is installed before the loop is entered. -/
def start (top : Nat) : Repl where
  bufferMultiline := CArray.fill LUA_BUFFER_SIZE ⟨0, 0⟩
  bufferMultilineLen := 0
  stopFlag := false
  hook := true
  top := top
  lines := 0
  loads := []

def newline (s : Repl) : Cell := ⟨10, s.lines⟩

def cellsOf (s : Repl) (l : Line) : List Cell := l.bytes.map fun b => ⟨b, s.lines⟩

/-- `buffer_multiline[buffer_multiline_len++] = '\n'`, then the NUL. -/
def pushNewline (s : Repl) : Option Repl :=
  (s.bufferMultiline.store s.bufferMultilineLen s.newline).bind fun buffer =>
  let len := (s.bufferMultilineLen + 1) % 256
  (buffer.store len ⟨0, s.lines⟩).bind fun buffer =>
  some { s with bufferMultiline := buffer, bufferMultilineLen := len }

/-- `memcpy` of the line, `buffer_multiline_len += len`, newline and NUL. -/
def appendLine (s : Repl) (l : Line) : Option Repl :=
  (s.bufferMultiline.memcpy s.bufferMultilineLen (s.cellsOf l)).bind fun buffer =>
  pushNewline { s with
    bufferMultiline := buffer
    bufferMultilineLen := (s.bufferMultilineLen + l.bytes.length) % 256 }

def text (s : Repl) : List Cell := s.bufferMultiline.first s.bufferMultilineLen

/-- `luaL_loadbuffer`: it pushes the chunk or the message. -/
def loadBuffer (s : Repl) : Repl :=
  { s with top := s.top + 1, loads := s.loads ++ [(s.lines, s.text)] }

/-- The end of the loop body: `reset flag & hook`. -/
def resetFlagHook (s : Repl) : Repl := { s with stopFlag := false, hook := false }

/-- The branch for `status == LUA_OK`; `lua_pcall` pops the chunk. -/
def runChunk (s : Repl) : PcallResult → Repl
  | .error => { s with stopFlag := false, top := s.top - 1 }
  | .ok nresults =>
    resetFlagHook { s with top := s.top - 1 + nresults, bufferMultilineLen := 0 }

def reportSyntaxError (s : Repl) : Repl :=
  resetFlagHook { s with top := s.top - 1, bufferMultilineLen := 0 }

/-- The branch for a text that did not load. -/
def onLoadError (s : Repl) (err : Option (List Char)) (reload : LoadResult) : Option Repl :=
  if nearEof err then
    if saysExpected err then some { s with top := s.top - 1 }
    else
      s.pushNewline.bind fun s =>
      let s := loadBuffer { s with top := 0 }
      match reload with
      | .ok => some { s with top := s.top - 1 }
      | .error _ => some s.reportSyntaxError
  else some s.reportSyntaxError

/-- The loop body after `ulTaskNotifyTake`. -/
def onLine (s : Repl) (i : ReplInput) : Option Repl :=
  (s.appendLine i.line).bind fun s =>
  let s := s.loadBuffer
  match i.turn.load with
  | .ok => some (s.runChunk i.turn.pcall)
  | .error err => s.onLoadError err i.turn.reload

def step (s : Repl) (i : ReplInput) : Option Repl :=
  (s.onLine i).map fun s => { s with lines := s.lines + 1 }

/-! ## The text of the statement -/

theorem pushNewline_spec (s : Repl) (hlen : s.bufferMultilineLen < 256) :
    ∃ s', s.pushNewline = some s' ∧
      s'.bufferMultilineLen = (s.bufferMultilineLen + 1) % 256 ∧
      (s.bufferMultilineLen < 255 → s'.text = s.text ++ [s.newline]) ∧
      (∀ c ∈ s'.text, c ∈ s.text ∨ c = s.newline) ∧
      s'.lines = s.lines ∧ s'.loads = s.loads := by
  obtain ⟨b₁, h₁⟩ := s.bufferMultiline.store_eq_some s.bufferMultilineLen s.newline hlen
  have hlen' : (s.bufferMultilineLen + 1) % 256 < 256 := Nat.mod_lt _ (by omega)
  obtain ⟨b₂, h₂⟩ := b₁.store_eq_some _ ⟨0, s.lines⟩ hlen'
  have htext : s.bufferMultilineLen < 255 →
      b₂.first ((s.bufferMultilineLen + 1) % 256) = s.text ++ [s.newline] := by
    intro hlt
    have hmod : (s.bufferMultilineLen + 1) % 256 = s.bufferMultilineLen + 1 :=
      Nat.mod_eq_of_lt (by omega)
    rw [hmod] at h₂ ⊢
    rw [CArray.first_store_of_le h₂ (Nat.le_refl _), CArray.first_store_succ h₁]
    rfl
  refine ⟨{ s with
    bufferMultiline := b₂
    bufferMultilineLen := (s.bufferMultilineLen + 1) % 256 }, ?_, rfl, htext, ?_, rfl, rfl⟩
  · simp only [pushNewline, h₁, h₂, Option.bind_some]
  · intro c hc
    have hc : c ∈ b₂.first ((s.bufferMultilineLen + 1) % 256) := hc
    by_cases hlt : s.bufferMultilineLen < 255
    · rw [htext hlt] at hc
      exact (List.mem_append.mp hc).imp_right List.mem_singleton.mp
    · -- the counter wraps to 0, and the text is empty
      have h0 : (s.bufferMultilineLen + 1) % 256 = 0 := by omega
      rw [h0, CArray.first_zero] at hc
      cases hc

/-- A text that is too long for the array is copied past its end. -/
theorem appendLine_none (s : Repl) (l : Line) (h : 256 < s.bufferMultilineLen + l.bytes.length) :
    s.appendLine l = none := by
  have hnone : s.bufferMultiline.memcpy s.bufferMultilineLen (s.cellsOf l) = none := by
    cases hm : s.bufferMultiline.memcpy s.bufferMultilineLen (s.cellsOf l) with
    | none => rfl
    | some b =>
      have hle := CArray.memcpy_le hm
      rw [cellsOf, List.length_map] at hle
      have hle : s.bufferMultilineLen + l.bytes.length ≤ 256 := hle
      omega
  simp [appendLine, hnone]

theorem appendLine_spec (s : Repl) (l : Line)
    (hfit : s.bufferMultilineLen + l.bytes.length ≤ 256) :
    ∃ s', s.appendLine l = some s' ∧
      s'.bufferMultilineLen = (s.bufferMultilineLen + l.bytes.length + 1) % 256 ∧
      (s.bufferMultilineLen + l.bytes.length < 255 →
        s'.text = s.text ++ s.cellsOf l ++ [s.newline]) ∧
      (∀ c ∈ s'.text, c ∈ s.text ∨ c.line = s.lines) ∧
      s'.lines = s.lines ∧ s'.loads = s.loads := by
  have hcells : (s.cellsOf l).length = l.bytes.length := by rw [cellsOf, List.length_map]
  obtain ⟨b, hb⟩ := (CArray.memcpy_eq_some_iff s.bufferMultiline s.bufferMultilineLen
    (s.cellsOf l)).mpr (show _ ≤ 256 by rw [hcells]; exact hfit)
  let s₁ : Repl := { s with
    bufferMultiline := b
    bufferMultilineLen := (s.bufferMultilineLen + l.bytes.length) % 256 }
  have hlen₁ : s₁.bufferMultilineLen < 256 := Nat.mod_lt _ (by omega)
  obtain ⟨s', h', hlen', htext', hmem', hlines', hloads'⟩ := s₁.pushNewline_spec hlen₁
  have hfirst : b.first (s.bufferMultilineLen + l.bytes.length) = s.text ++ s.cellsOf l := by
    rw [← hcells, CArray.first_memcpy hb]
    rfl
  have hcell : ∀ c ∈ s.cellsOf l, c.line = s.lines := by
    intro c hc
    obtain ⟨x, -, rfl⟩ := List.mem_map.mp hc
    rfl
  refine ⟨s', ?_, ?_, ?_, ?_, hlines', hloads'⟩
  · simp only [appendLine, hb, Option.bind_some]
    exact h'
  · rw [hlen']
    show ((s.bufferMultilineLen + l.bytes.length) % 256 + 1) % 256 = _
    omega
  · intro hlt
    have hs₁ : s₁.bufferMultilineLen = s.bufferMultilineLen + l.bytes.length :=
      Nat.mod_eq_of_lt (by omega)
    rw [htext' (by omega), text, hs₁]
    show b.first _ ++ [_] = _
    rw [hfirst]
    rfl
  · intro c hc
    rcases hmem' c hc with hc | rfl
    · have hc : c ∈ b.first ((s.bufferMultilineLen + l.bytes.length) % 256) := hc
      by_cases hlt : s.bufferMultilineLen + l.bytes.length < 256
      · rw [Nat.mod_eq_of_lt hlt, hfirst] at hc
        exact (List.mem_append.mp hc).imp_right (hcell c)
      · have h0 : (s.bufferMultilineLen + l.bytes.length) % 256 = 0 := by omega
        rw [h0, CArray.first_zero] at hc
        cases hc
    · exact Or.inr rfl

/-- One line handled, told by the texts after the append (`s₁`) and after the
second newline (`s₂`). -/
structure Handled (s : Repl) (i : ReplInput) (s₁ s₂ s' : Repl) : Prop where
  step : s.step i = some s'
  len₂ : s₂.bufferMultilineLen = (s₁.bufferMultilineLen + 1) % 256
  text₂ : s₁.bufferMultilineLen < 255 → s₂.text = s₁.text ++ [s₁.newline]
  mem₂ : ∀ c ∈ s₂.text, c ∈ s₁.text ∨ c = s₁.newline
  len : s'.bufferMultilineLen =
    i.turn.exit.keep 0 s₁.bufferMultilineLen s₂.bufferMultilineLen
  text : s'.text = i.turn.exit.keep [] s₁.text s₂.text
  lines : s'.lines = s₁.lines + 1
  loads : s'.loads = s₁.loads ++ (s₁.lines, s₁.text) ::
    if i.turn.reloads then [(s₁.lines, s₂.text)] else []

/-- Once the line is appended the turn has a next state, and this is it. -/
theorem handled {s s₁ : Repl} {i : ReplInput} (h₁ : s.appendLine i.line = some s₁)
    (hlen : s₁.bufferMultilineLen < 256) : ∃ s₂ s', Handled s i s₁ s₂ s' := by
  obtain ⟨s₂, h₂, hlen₂, htext₂, hmem₂, hlines, hloads⟩ := s₁.loadBuffer.pushNewline_spec hlen
  have hloads : s₂.loads = s₁.loads ++ [(s₁.lines, s₁.text)] := hloads
  have hlines : s₂.lines = s₁.lines := hlines
  -- the turn is followed through the branches of the body
  suffices h : ∃ s', s.onLine i = some s' ∧
      s'.bufferMultilineLen = i.turn.exit.keep 0 s₁.bufferMultilineLen s₂.bufferMultilineLen ∧
      s'.text = i.turn.exit.keep [] s₁.text s₂.text ∧ s'.lines = s₁.lines ∧
      s'.loads = s₁.loads ++ (s₁.lines, s₁.text) ::
        if i.turn.reloads then [(s₁.lines, s₂.text)] else [] by
    obtain ⟨s', hs', hlen', htext', hlines', hloads'⟩ := h
    refine ⟨s₂, { s' with lines := s'.lines + 1 }, ?_, hlen₂, htext₂, hmem₂, hlen', htext', ?_,
      hloads'⟩
    · show (s.onLine i).map _ = _
      rw [hs', Option.map_some]
    · show s'.lines + 1 = s₁.lines + 1
      rw [hlines']
  obtain ⟨line, load, pcall, reload⟩ := i
  have h₁ : s.appendLine line = some s₁ := h₁
  simp only [onLine, h₁, Option.bind_some, LuaTurn.exit, LuaTurn.reloads]
  cases load with
  | ok => cases pcall <;> exact ⟨_, rfl, rfl, rfl, rfl, rfl⟩
  | error err =>
    simp only [onLoadError, h₂, Option.bind_some]
    by_cases hn : nearEof err = true
    · by_cases he : saysExpected err = true
      · simp only [hn, he, if_true]
        exact ⟨_, rfl, rfl, rfl, rfl, rfl⟩
      · have hloads₂ : s₂.loads ++ [(s₂.lines, s₂.text)] =
            s₁.loads ++ [(s₁.lines, s₁.text), (s₁.lines, s₂.text)] := by
          rw [hloads, hlines, List.append_assoc]
          rfl
        simp only [hn, he, if_true]
        cases reload with
        | ok => exact ⟨_, rfl, rfl, rfl, hlines, hloads₂⟩
        | error => exact ⟨_, rfl, rfl, rfl, hlines, hloads₂⟩
    · simp only [hn]
      exact ⟨_, rfl, rfl, rfl, rfl, rfl⟩

/-- A step is defined only for a line that fits behind the text. -/
theorem step_fits {s s' : Repl} {i : ReplInput} (h : s.step i = some s') :
    s.bufferMultilineLen + i.line.bytes.length ≤ 256 := by
  by_contra hgt
  have hnone := s.appendLine_none i.line (by omega)
  simp [Repl.step, onLine, hnone] at h

/-! ## The ways through the body -/

/-- Apart from the buffer and its length, nothing changes. -/
theorem pushNewline_frame {s s' : Repl} (h : s.pushNewline = some s') :
    s' = { s with
      bufferMultiline := s'.bufferMultiline
      bufferMultilineLen := s'.bufferMultilineLen } := by
  obtain ⟨b, -, h⟩ := Option.bind_eq_some_iff.mp h
  obtain ⟨b', -, h⟩ := Option.bind_eq_some_iff.mp h
  obtain rfl := Option.some.inj h
  rfl

theorem appendLine_frame {s s' : Repl} {l : Line} (h : s.appendLine l = some s') :
    s' = { s with
      bufferMultiline := s'.bufferMultiline
      bufferMultilineLen := s'.bufferMultilineLen } := by
  obtain ⟨b, -, hpush⟩ := Option.bind_eq_some_iff.mp h
  have hpush := pushNewline_frame hpush
  exact hpush

/-- What the body makes of the line appended (`s₁`), one case for each way
through it; the text loaded a second time is that of `s₂`. -/
inductive Outcome (s₁ : Repl) (t : LuaTurn) : Repl → Prop
  | ran (n : Nat) (hload : t.load = .ok) (hpcall : t.pcall = .ok n) :
      Outcome s₁ t (s₁.loadBuffer.runChunk (.ok n))
  | runtimeError (hload : t.load = .ok) (hpcall : t.pcall = .error) :
      Outcome s₁ t (s₁.loadBuffer.runChunk .error)
  | incomplete (err : Option (List Char)) (hload : t.load = .error err)
      (heof : nearEof err = true) (hexp : saysExpected err = true) :
      Outcome s₁ t { s₁.loadBuffer with top := s₁.loadBuffer.top - 1 }
  | retried (err : Option (List Char)) (s₂ : Repl) (hload : t.load = .error err)
      (heof : nearEof err = true) (hexp : saysExpected err = false)
      (hpush : s₁.loadBuffer.pushNewline = some s₂) (hreload : t.reload = .ok) :
      Outcome s₁ t { loadBuffer { s₂ with top := 0 } with top := 0 }
  | rejected (err err₂ : Option (List Char)) (s₂ : Repl) (hload : t.load = .error err)
      (heof : nearEof err = true) (hexp : saysExpected err = false)
      (hpush : s₁.loadBuffer.pushNewline = some s₂) (hreload : t.reload = .error err₂) :
      Outcome s₁ t (loadBuffer { s₂ with top := 0 }).reportSyntaxError
  | syntaxError (err : Option (List Char)) (hload : t.load = .error err)
      (heof : nearEof err = false) : Outcome s₁ t s₁.loadBuffer.reportSyntaxError

theorem onLine_cases {s s' : Repl} {i : ReplInput} (h : s.onLine i = some s') :
    ∃ s₁, s.appendLine i.line = some s₁ ∧ Outcome s₁ i.turn s' := by
  obtain ⟨s₁, happ, h⟩ := Option.bind_eq_some_iff.mp h
  refine ⟨s₁, happ, ?_⟩
  cases hload : i.turn.load with
  | ok =>
    simp only [hload, Option.some.injEq] at h
    subst h
    cases hpcall : i.turn.pcall with
    | ok n => exact .ran n hload hpcall
    | error => exact .runtimeError hload hpcall
  | error err =>
    simp only [hload, onLoadError] at h
    cases heof : nearEof err with
    | false =>
      simp only [heof, Bool.false_eq_true, if_false, Option.some.injEq] at h
      subst h
      exact .syntaxError err hload heof
    | true =>
      cases hexp : saysExpected err with
      | true =>
        simp only [heof, hexp, if_true, Option.some.injEq] at h
        subst h
        exact .incomplete err hload heof hexp
      | false =>
        simp only [heof, hexp, if_true, Bool.false_eq_true, if_false] at h
        obtain ⟨s₂, hpush, h⟩ := Option.bind_eq_some_iff.mp h
        cases hreload : i.turn.reload with
        | ok =>
          simp only [hreload, Option.some.injEq] at h
          subst h
          exact .retried err s₂ hload heof hexp hpush hreload
        | error err₂ =>
          simp only [hreload, Option.some.injEq] at h
          subst h
          exact .rejected err err₂ s₂ hload heof hexp hpush hreload

theorem step_cases {s s' : Repl} {i : ReplInput} (h : s.step i = some s') :
    ∃ s₁ t, s.appendLine i.line = some s₁ ∧ Outcome s₁ i.turn t ∧
      s' = { t with lines := t.lines + 1 } := by
  obtain ⟨t, hline, rfl⟩ := Option.map_eq_some_iff.mp h
  obtain ⟨s₁, happ, hout⟩ := onLine_cases hline
  exact ⟨s₁, t, happ, hout, rfl⟩

end Repl

def handleLuaCommand (top : Nat) : Machine Repl ReplInput where
  init := Repl.start top
  step := Repl.step

end CLIos
