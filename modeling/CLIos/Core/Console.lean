import CLIos.Core.ShellRounds
import CLIos.Core.Handoff
import CLIos.Core.Accumulator

/-!
# The console from the serial port to the Lua loader

The three parts of `main/Core_Level.c` put together: the rounds of `_ShellTask`
over the bytes of a read (`Shell.onByte`), the places of the tasks and their
notification (`Handoff`), and the body of `_HandleLuaCommand` (`Repl.step`).  A
round that ends a line writes the row that is not active; the line is handled
from the row whose index was loaded.  The steps of the tasks come in any order.

`before`, `read` and `handled` record what went in at the two ends: the reads,
and the lines handled with the way their Lua calls ended.  What the console is
for is told by `Console.Delivered`: the loader sees the text of the lines typed,
and once nothing is under way it has seen all of them.
-/

namespace CLIos

open CMem Runs Text

structure Console where
  shell : Shell
  /-- the reads already looked at -/
  before : List UartRead
  /-- the read being looked at, and how many of its bytes were -/
  read : UartRead
  round : Nat
  handoff : Handoff
  repl : Repl
  handled : List ReplInput

inductive ConsoleEvent where
  | createTask
  | uartRead (r : UartRead)
  /-- the next byte of the read -/
  | round
  | storeIndex
  | notifyGive
  | setHook
  | notifyTake
  | loadIndex
  /-- the loop body from the copy of the row to `lua_pcall` -/
  | handleLine (turn : LuaTurn)
  | finishChunk

/-- A row holds a line if it was written: one byte at least, and 63 at most. -/
def Line.ofRow (bytes : List UInt8) : Option Line :=
  if h : 0 < bytes.length ∧ bytes.length < CHAR_BUFFER_SIZE then some ⟨bytes, h.1, h.2⟩ else none

namespace Console

def start (stack : CArray UInt8 CHAR_BUFFER_SIZE) (top : Nat) : Console where
  shell := Shell.start stack
  before := []
  read := .error
  round := 0
  handoff := Handoff.start
  repl := Repl.start top
  handled := []

/-- The first `buffer_perline_len[idx]` bytes of `buffer_perline[idx]`. -/
def row (s : Console) (idx : Bool) : List UInt8 :=
  (s.shell.bufferPerline idx).first (s.shell.bufferPerlineLen idx)

/-- A step that moves only the places of the tasks. -/
def move (s : Console) (e : HandoffEvent) : Option Console :=
  (s.handoff.step e).map fun handoff => { s with handoff := handoff }

/-- The line that a round has published, if it has. -/
def publishedBy (s s' : Shell) : Option (List UInt8) := s'.published[s.published.length]?

/-- The line in the row whose index `_HandleLuaCommand` has loaded. -/
def loadedLine (s : Console) : Option Line :=
  match s.handoff.lua with
  | .loaded idx => Line.ofRow (s.row idx)
  | _ => none

def step (s : Console) : ConsoleEvent → Option Console
  | .createTask => s.move .createTask
  | .uartRead r =>
    if s.handoff.shell = .reading ∧ s.round = s.read.data.length then
      (s.shell.bufferInput.memcpy 0 r.data).map fun input => { s with
        shell := { s.shell with bufferInput := input }
        before := s.before ++ [s.read]
        read := r
        round := 0 }
    else none
  | .round =>
    if s.handoff.shell = .reading ∧ s.round < s.read.data.length then
      (s.shell.onByte s.round).bind fun shell =>
      match publishedBy s.shell shell with
      | none => some { s with shell := shell, round := s.round + 1 }
      | some line => move { s with shell := shell, round := s.round + 1 } (.writeRow line)
    else none
  | .storeIndex => s.move .storeIndex
  | .notifyGive => s.move .notifyGive
  | .setHook => s.move .setHook
  | .notifyTake => s.move .notifyTake
  | .loadIndex => s.move .loadIndex
  | .handleLine turn =>
    s.loadedLine.bind fun line =>
    (s.repl.step ⟨line, turn⟩).bind fun repl =>
    move { s with repl := repl, handled := s.handled ++ [⟨line, turn⟩] } .copyRow
  | .finishChunk => s.move .finishChunk

/-- Whose turn it is, by the places of the tasks alone. -/
def Enabled (s : Console) : ConsoleEvent → Prop
  | .createTask => s.handoff.main ≠ .returned
  | .uartRead _ => s.handoff.shell = .reading ∧ s.round = s.read.data.length
  | .round => s.handoff.shell = .reading ∧ s.round < s.read.data.length
  | .storeIndex => ∃ line, s.handoff.shell = .wrote line
  | .notifyGive => ∃ line, s.handoff.shell = .switched line
  | .setHook => s.handoff.lua = .installHook
  | .notifyTake => s.handoff.lua = .waiting ∧ 0 < s.handoff.notifications
  | .loadIndex => s.handoff.lua = .taken
  | .handleLine _ => ∃ idx, s.handoff.lua = .loaded idx
  | .finishChunk => s.handoff.lua = .running

/-- The bytes received, those of the read under way included. -/
def stream (s : Console) : List UInt8 := received (s.before ++ [s.read])

/-- The round at hand ends a line. -/
def endsLine (s : Console) : Bool :=
  match s.shell.onByte s.round with
  | some shell => (publishedBy s.shell shell).isSome
  | none => false

/-- What the code relies on and does not check: no read tears a line, the shell
waits for the consumer, and a statement fits `buffer_multiline`. -/
def Ready (s : Console) : ConsoleEvent → Prop
  | .uartRead r => Untorn (openRun isEol s.stream) r.data
  | .round => s.endsLine = true → s.handoff.lua ≠ .loaded (!s.handoff.activeIndex)
  | .storeIndex => s.handoff.Ready .storeIndex
  | .notifyGive => s.handoff.Ready .notifyGive
  | .handleLine turn => ∀ line ∈ s.loadedLine, FitsStatement s.handled ⟨line, turn⟩
  | _ => True

/-- Every byte has been looked at and every line taken. -/
def Quiet (s : Console) : Prop :=
  s.handoff.shell = .reading ∧ s.round = s.read.data.length ∧ s.handoff.lua = .waiting ∧
    s.handoff.notifications = 0

def handledLines (s : Console) : List (List UInt8) := s.handled.map fun i => i.line.bytes

/-- The loader has been given the texts of the first lines typed, each line in
its order, none twice; of all of them when the console is quiet. -/
structure Delivered (s : Console) : Prop where
  lines : s.handledLines <+: typedLines s.stream
  texts : s.repl.loads.map (fun load => bytesOf load.2) = textsFrom [] s.handled
  all : s.Quiet → s.handledLines = typedLines s.stream

end Console

def console (stack : CArray UInt8 CHAR_BUFFER_SIZE) (top : Nat) : Machine Console ConsoleEvent where
  init := Console.start stack top
  step := Console.step

/-! ## What a round does to the rows -/

/-- A line published, or nothing that the other task can see. -/
theorem Shell.onByte_rows {s s' : Shell} {i : Nat} (hidx : s.index ≤ 63)
    (h : s.onByte i = some s') :
    (s'.published = s.published ∧ s'.activeIndex = s.activeIndex ∧
      ∀ j l, s.Holds j l → s'.Holds j l) ∨
    ∃ l, s'.published = s.published ++ [l] ∧ s'.activeIndex = !s.activeIndex ∧
      s'.Holds (!s.activeIndex) l ∧ ∀ l', s.Holds s.activeIndex l' → s'.Holds s.activeIndex l' := by
  obtain rfl | ⟨s₁, -, hpub, rfl⟩ | ⟨input, -, rfl⟩ := onByte_cases h
  · exact Or.inl ⟨rfl, rfl, fun _ _ => id⟩
  · obtain ⟨l, -, hp, ha, hl, hkeep⟩ := publish_holds hidx hpub
    refine Or.inr ⟨l, hp, ha, ⟨hl.len, hl.bytes, hl.nul⟩, fun l' h' => ?_⟩
    have hl' := hkeep l' h'
    exact ⟨hl'.len, hl'.bytes, hl'.nul⟩
  · exact Or.inl ⟨rfl, rfl, fun _ _ hl => ⟨hl.len, hl.bytes, hl.nul⟩⟩

namespace Console

theorem publishedBy_eq_none {s s' : Shell} (h : s'.published = s.published) :
    publishedBy s s' = none := by
  rw [publishedBy, h, List.getElem?_eq_none (Nat.le_refl _)]

theorem publishedBy_eq_some {s s' : Shell} {l : List UInt8}
    (h : s'.published = s.published ++ [l]) :
    publishedBy s s' = some l := by
  rw [publishedBy, h, List.getElem?_concat_length]

end Console

/-- The line written and not notified yet. -/
def Handoff.inShell (s : Handoff) : List (List UInt8) :=
  match s.shell with
  | .wrote line => [line]
  | .switched line => [line]
  | .absent => []
  | .reading => []

/-- `active_index` is not stored yet. -/
def Handoff.isWrote (s : Handoff) : Bool :=
  match s.shell with
  | .wrote _ => true
  | _ => false

/-- The steps that neither write a row nor copy one. -/
def HandoffEvent.isControl : HandoffEvent → Bool
  | .writeRow _ => false
  | .copyRow => false
  | _ => true

namespace Handoff

/-- `_ShellTask` is not there before its `xTaskCreate`. -/
def Unborn (s : Handoff) : Prop := s.main = .createShell → s.shell = .absent

theorem Unborn.step {s t : Handoff} {e : HandoffEvent} (h : s.Unborn) (hs : s.step e = some t) :
    t.Unborn := by
  cases e with
  | createTask =>
    simp only [Handoff.step] at hs
    split at hs <;> cases hs <;> (intro hm; cases hm)
  | writeRow line =>
    simp only [Handoff.step] at hs
    split at hs
    · next hshell =>
      cases hs
      intro hm
      cases hshell.symm.trans (h hm)
    · cases hs
  | storeIndex =>
    simp only [Handoff.step] at hs
    split at hs
    · next hshell =>
      cases hs
      intro hm
      cases hshell.symm.trans (h hm)
    · cases hs
  | notifyGive =>
    simp only [Handoff.step] at hs
    split at hs
    · next hshell =>
      have habsent : s.main ≠ .createShell := by
        intro hm
        cases hshell.symm.trans (h hm)
      split at hs <;> cases hs <;> exact fun hm => absurd hm habsent
    · cases hs
  | setHook | notifyTake | loadIndex | copyRow | finishChunk =>
    simp only [Handoff.step] at hs
    split at hs <;> cases hs
    exact h

/-- A control step moves the line from one place to the next. -/
theorem step_frame {s t : Handoff} {e : HandoffEvent} (he : e.isControl = true)
    (h : s.Unborn) (hs : s.step e = some t) :
    t.appended = s.appended ∧ t.published ++ t.inShell = s.published ++ s.inShell ∧
      t.rows = s.rows ∧ (t.activeIndex ^^ t.isWrote) = (s.activeIndex ^^ s.isWrote) := by
  cases e with
  | createTask =>
    simp only [Handoff.step] at hs
    split at hs
    · next hm =>
      cases hs
      simp [inShell, isWrote, h hm]
    · cases hs
      exact ⟨rfl, rfl, rfl, rfl⟩
    · cases hs
  | writeRow line => cases he
  | storeIndex =>
    simp only [Handoff.step] at hs
    split at hs
    · next line hw =>
      cases hs
      simp [inShell, isWrote, hw]
    · cases hs
  | notifyGive =>
    simp only [Handoff.step] at hs
    split at hs
    · next line hw =>
      split at hs <;> cases hs <;> simp [inShell, isWrote, hw]
    · cases hs
  | copyRow => cases he
  | setHook | notifyTake | loadIndex | finishChunk =>
    simp only [Handoff.step] at hs
    split at hs
    · cases hs
      exact ⟨rfl, rfl, rfl, rfl⟩
    · cases hs

end Handoff

namespace Console

/-! ## The invariant -/

structure Inv (s : Console) : Prop where
  handoff : s.handoff.Inv
  unborn : s.handoff.Unborn
  held : Repl.Held s.handled s.repl
  lines : s.handledLines = s.handoff.appended
  published : s.shell.published = s.handoff.published ++ s.handoff.inShell
  twoRows : s.shell.TwoRows
  rows : ∀ i, s.shell.Holds i (s.handoff.rows i)
  active : s.shell.activeIndex = (s.handoff.activeIndex ^^ s.handoff.isWrote)
  rounds : s.round ≤ s.read.data.length
  /-- the read under way began in step with the stream, and tears no line -/
  inRead : ∃ base, InSync (received s.before) base ∧
    Untorn (openRun isEol (received s.before)) s.read.data ∧
    base.during s.read s.round = some s.shell

theorem inv_start (stack : CArray UInt8 CHAR_BUFFER_SIZE) (top : Nat) :
    (start stack top).Inv where
  handoff := Handoff.inv_start
  unborn := fun _ => rfl
  held := Repl.held_start top
  lines := rfl
  published := rfl
  twoRows := Shell.TwoRows.start stack
  rows := fun _ => ⟨rfl, rfl, rfl⟩
  active := rfl
  rounds := Nat.le_refl _
  inRead := by
    refine ⟨Shell.start stack, ⟨rfl, rfl⟩, Or.inl rfl, ?_⟩
    show ((Shell.start stack).bufferInput.memcpy 0 []).bind _ = _
    rw [CArray.memcpy_nil]
    rfl

theorem Inv.move {s s' : Console} {e : HandoffEvent} (h : s.Inv) (he : e.isControl = true)
    (hready : s.handoff.Ready e) (hs : s.move e = some s') : s'.Inv := by
  obtain ⟨t, ht, rfl⟩ := Option.map_eq_some_iff.mp hs
  obtain ⟨happ, hpub, hrows, hact⟩ := Handoff.step_frame he h.unborn ht
  exact ⟨h.handoff.step hready ht, h.unborn.step ht, h.held, h.lines.trans happ.symm,
    h.published.trans hpub.symm, h.twoRows, fun i => by rw [hrows]; exact h.rows i,
    h.active.trans hact.symm, h.rounds, h.inRead⟩

/-- Between two reads the task is in step with all bytes received. -/
theorem Inv.inSync {s : Console} (h : s.Inv) (hround : s.round = s.read.data.length) :
    InSync s.stream s.shell := by
  obtain ⟨base, hsync, htorn, hduring⟩ := h.inRead
  obtain ⟨s', hread, hsync'⟩ := hsync.onRead htorn
  rw [hround, Shell.during_length, hread] at hduring
  obtain rfl := Option.some.inj hduring
  rw [stream, received_concat]
  exact hsync'

/-- Inside a read the lines published are some of those typed with it. -/
theorem Inv.published_prefix {s : Console} (h : s.Inv) :
    s.shell.published <+: typedLines s.stream := by
  obtain ⟨base, hsync, htorn, hduring⟩ := h.inRead
  obtain ⟨s', hread, hsync'⟩ := hsync.onRead htorn
  obtain ⟨input, hcp, heq⟩ := base.onRead_eq s.read
  have hidx := hsync.index
  have hbytes : Shell.onBytes { base with bufferInput := input } s.round = some s.shell := by
    rw [Shell.during, hcp] at hduring
    exact hduring
  obtain ⟨t, ht, -, -, hall⟩ := Shell.onBytes_total { base with bufferInput := input }
    (show base.index ≤ 63 by omega) s.read.data.length s.read.length_data_le
  obtain rfl : t = s' := Option.some.inj (ht.symm.trans (heq.symm.trans hread))
  have hpub := hall s.round s.shell h.rounds hbytes
  rw [stream, received_concat, ← hsync'.published]
  exact hpub

theorem Inv.delivered {s : Console} (h : s.Inv) : s.Delivered := by
  refine ⟨?_, h.held.loads, ?_⟩
  · have happ : s.handoff.appended <+: s.handoff.published :=
      h.handoff.queue ▸ List.prefix_append _ _
    have hpub : s.handoff.published <+: s.shell.published :=
      h.published ▸ List.prefix_append _ _
    rw [h.lines]
    exact (happ.trans hpub).trans h.published_prefix
  · rintro ⟨hshell, hround, hwait, h0⟩
    have hinShell : s.handoff.inShell = [] := by
      rw [Handoff.inShell, hshell]
    rw [h.lines, h.handoff.delivered.1 hwait h0, ← (h.inSync hround).published, h.published,
      hinShell, List.append_nil]

/-! ## The steps -/

theorem Inv.uartRead {s s' : Console} {r : UartRead} (h : s.Inv)
    (hready : s.Ready (.uartRead r)) (hs : s.step (.uartRead r) = some s') : s'.Inv := by
  simp only [step] at hs
  split at hs
  · next hturn =>
    obtain ⟨input, hcp, rfl⟩ := Option.map_eq_some_iff.mp hs
    refine ⟨h.handoff, h.unborn, h.held, h.lines, h.published,
      h.twoRows.of_index input h.twoRows.index,
      fun i => ⟨(h.rows i).len, (h.rows i).bytes, (h.rows i).nul⟩, h.active, Nat.zero_le _, ?_⟩
    refine ⟨s.shell, h.inSync hturn.2, hready, ?_⟩
    show (s.shell.bufferInput.memcpy 0 r.data).bind _ = _
    rw [hcp]
    rfl
  · cases hs

/-- After a round the read under way is one byte further. -/
theorem Inv.inRead_round {s : Console} (h : s.Inv) {shell : Shell}
    (hbyte : s.shell.onByte s.round = some shell) :
    ∃ base, InSync (received s.before) base ∧
      Untorn (openRun isEol (received s.before)) s.read.data ∧
      base.during s.read (s.round + 1) = some shell := by
  obtain ⟨base, hsync, htorn, hduring⟩ := h.inRead
  refine ⟨base, hsync, htorn, ?_⟩
  rw [Shell.during_succ, hduring]
  exact hbyte

theorem Inv.round {s s' : Console} (h : s.Inv) (hready : s.Ready .round)
    (hs : s.step .round = some s') : s'.Inv := by
  simp only [step] at hs
  split at hs
  · next hturn =>
    obtain ⟨hreading, hlt⟩ := hturn
    obtain ⟨shell, hbyte, hs⟩ := Option.bind_eq_some_iff.mp hs
    have hrows := h.twoRows.onByte hbyte
    have hinRead := h.inRead_round hbyte
    have hinShell : s.handoff.inShell = [] := by rw [Handoff.inShell, hreading]
    have hwrote : s.handoff.isWrote = false := by rw [Handoff.isWrote, hreading]
    have hactive := h.active
    rw [hwrote, Bool.xor_false] at hactive
    rcases Shell.onByte_rows h.twoRows.index hbyte with ⟨hp, ha, hkeep⟩ | ⟨l, hp, ha, hl, hkeep⟩
    · rw [publishedBy_eq_none hp] at hs
      obtain rfl := Option.some.inj hs
      exact ⟨h.handoff, h.unborn, h.held, h.lines, hp.trans h.published, hrows,
        fun i => hkeep i _ (h.rows i), ha.trans h.active, hlt, hinRead⟩
    · rw [publishedBy_eq_some hp] at hs
      have hends : s.endsLine = true := by
        simp only [endsLine, hbyte, publishedBy_eq_some hp, Option.isSome_some]
      obtain ⟨t, ht, rfl⟩ := Option.map_eq_some_iff.mp hs
      have hinv := h.handoff.writeRow (hready hends) ht
      have hunborn := h.unborn.step ht
      simp only [Handoff.step, hreading] at ht
      obtain rfl := Option.some.inj ht
      refine ⟨hinv, hunborn, h.held, h.lines, ?_, hrows, fun i => ?_, ?_, hlt, hinRead⟩
      · show shell.published = s.handoff.published ++ [l]
        rw [hp, h.published, hinShell, List.append_nil]
      · -- the row written is the other one, for the task as for its places
        show shell.Holds i (if i = !s.handoff.activeIndex then l else s.handoff.rows i)
        rw [← hactive]
        by_cases hi : i = !s.shell.activeIndex
        · rw [if_pos hi, hi]
          exact hl
        · obtain rfl : i = s.shell.activeIndex := by simpa using hi
          rw [if_neg hi]
          exact hkeep _ (h.rows _)
      · show shell.activeIndex = (s.handoff.activeIndex ^^ true)
        rw [ha, hactive, Bool.xor_true]
  · cases hs

/-- What the consumer has loaded is a line that was published. -/
theorem Inv.row_mem {s : Console} (h : s.Inv) {idx : Bool} (hl : s.handoff.lua = .loaded idx) :
    s.row idx = s.handoff.rows idx ∧ s.handoff.rows idx ∈ s.shell.published := by
  have hrow := h.rows idx
  have hq := h.handoff.queue
  refine ⟨?_, ?_⟩
  · rw [row, hrow.len, hrow.bytes]
  · rw [h.published, hq]
    simp [Handoff.pending, Handoff.inHand, hl]

theorem Inv.loadedLine {s : Console} (h : s.Inv) {idx : Bool} (hl : s.handoff.lua = .loaded idx) :
    ∃ line, s.loadedLine = some line ∧ line.bytes = s.handoff.rows idx := by
  obtain ⟨hrow, hmem⟩ := h.row_mem hl
  obtain ⟨hpos, hle⟩ := h.twoRows.lines _ hmem
  have hfits : 0 < (s.row idx).length ∧ (s.row idx).length < 64 := by
    rw [hrow]
    omega
  refine ⟨⟨s.row idx, hfits.1, hfits.2⟩, ?_, hrow⟩
  simp only [Console.loadedLine, hl, Line.ofRow]
  exact dif_pos hfits

theorem Inv.handleLine {s s' : Console} {turn : LuaTurn} (h : s.Inv)
    (hready : s.Ready (.handleLine turn)) (hs : s.step (.handleLine turn) = some s') : s'.Inv := by
  obtain ⟨line, hline, hs⟩ := Option.bind_eq_some_iff.mp hs
  obtain ⟨repl, hrepl, hs⟩ := Option.bind_eq_some_iff.mp hs
  obtain ⟨t, ht, rfl⟩ := Option.map_eq_some_iff.mp hs
  have hinv := h.handoff.copyRow ht
  have hunborn := h.unborn.step ht
  simp only [Handoff.step] at ht
  split at ht
  · next idx hl =>
    obtain rfl := Option.some.inj ht
    obtain ⟨line', hline', hbytes⟩ := h.loadedLine hl
    obtain rfl : line' = line := Option.some.inj (hline'.symm.trans hline)
    obtain ⟨repl', hrepl', hheld⟩ := h.held.step (hready line' hline)
    obtain rfl : repl' = repl := Option.some.inj (hrepl'.symm.trans hrepl)
    refine ⟨hinv, hunborn, hheld, ?_, h.published, h.twoRows, h.rows, h.active, h.rounds, h.inRead⟩
    show (s.handled ++ [_]).map _ = s.handoff.appended ++ [s.handoff.rows idx]
    rw [List.map_append, ← h.lines, ← hbytes]
    rfl
  · cases ht

theorem Inv.step {s s' : Console} {e : ConsoleEvent} (h : s.Inv) (hready : s.Ready e)
    (hs : s.step e = some s') : s'.Inv := by
  cases e with
  | createTask => exact h.move (e := .createTask) rfl trivial hs
  | uartRead r => exact h.uartRead hready hs
  | round => exact h.round hready hs
  | storeIndex => exact h.move (e := .storeIndex) rfl hready hs
  | notifyGive => exact h.move (e := .notifyGive) rfl hready hs
  | setHook => exact h.move (e := .setHook) rfl trivial hs
  | notifyTake => exact h.move (e := .notifyTake) rfl trivial hs
  | loadIndex => exact h.move (e := .loadIndex) rfl trivial hs
  | handleLine turn => exact h.handleLine hready hs
  | finishChunk => exact h.move (e := .finishChunk) rfl trivial hs

/-! ## No step fails -/

/-- A step is not defined only where it is not its turn: no access leaves a
buffer, and no row without a line is copied. -/
theorem Inv.enabled {s : Console} {e : ConsoleEvent} (h : s.Inv) (he : s.Enabled e)
    (hready : s.Ready e) : ∃ s', s.step e = some s' := by
  cases e with
  | createTask =>
    cases hm : s.handoff.main with
    | returned => exact absurd hm he
    | _ => simp [Console.step, Console.move, Handoff.step, hm]
  | uartRead r =>
    have hlen := r.length_data_le
    obtain ⟨input, hcp⟩ := (CArray.memcpy_eq_some_iff s.shell.bufferInput 0 r.data).mpr
      (show 0 + r.data.length ≤ 64 by omega)
    have hturn : s.handoff.shell = .reading ∧ s.round = s.read.data.length := he
    simp [Console.step, hturn, hcp]
  | round =>
    have hlen := s.read.length_data_le
    have hturn : s.handoff.shell = .reading ∧ s.round < s.read.data.length := he
    have hlt := hturn.2
    obtain ⟨shell, hbyte, -⟩ := s.shell.onByte_total s.round (by omega) h.twoRows.index
    simp only [Console.step, if_pos hturn, hbyte, Option.bind_some]
    cases publishedBy s.shell shell with
    | none => exact ⟨_, rfl⟩
    | some line => simp [Console.move, Handoff.step, hturn.1]
  | storeIndex =>
    obtain ⟨line, hw⟩ := he
    simp [Console.step, Console.move, Handoff.step, hw]
  | notifyGive =>
    obtain ⟨line, hw⟩ := he
    have hset : s.handoff.handleSet = true := hready
    simp [Console.step, Console.move, Handoff.step, hw, hset]
  | setHook | loadIndex | finishChunk =>
    have hl : s.handoff.lua = _ := he
    simp [Console.step, Console.move, Handoff.step, hl]
  | notifyTake =>
    have hl : s.handoff.lua = .waiting ∧ 0 < s.handoff.notifications := he
    simp [Console.step, Console.move, Handoff.step, hl]
  | handleLine turn =>
    obtain ⟨idx, hl⟩ := he
    obtain ⟨line, hline, -⟩ := h.loadedLine hl
    obtain ⟨repl, hrepl, -⟩ := h.held.step (hready line hline)
    simp [Console.step, hline, hrepl, Console.move, Handoff.step, hl]

end Console

/-- **The console.**  In every interleaving in which no read tears a line, the
shell waits for the consumer and the statements fit, the loader is given the
text of the lines typed and nothing else, of all of them when the console is
quiet; and no step that has its turn fails. -/
theorem console_delivers (stack : CArray UInt8 CHAR_BUFFER_SIZE) (top : Nat)
    (es : List ConsoleEvent) (h : (console stack top).Along Console.Ready es) :
    (console stack top).Always (fun s => s.Delivered ∧
      ∀ e, s.Enabled e → s.Ready e → ∃ s', s.step e = some s') es :=
  Machine.always_mono (fun _ hI => ⟨hI.delivered, fun _ he hr => hI.enabled he hr⟩)
    (Machine.always_of_along (Console.inv_start stack top)
      (fun _ _ _ hI hr hs => hI.step hr hs) es h)

theorem refill_iff (kept w : List UInt8) : Refill kept w ↔
    ∃ i ∈ List.range (w.length + 1), ((w.take i).all fun c => !isEol c) = true ∧
      (w.drop i).isEmpty = false ∧ (w.drop i).all isEol = true ∧ w.length = 64 ∧
      (kept ++ w.take i).take 63 = repeated (min 63 kept.length) w := by
  simp only [List.isEmpty_eq_false_iff, List.all_eq_true, Bool.not_eq_true']
  constructor
  · rintro ⟨u, z, rfl, hrest⟩
    refine ⟨u.length, List.mem_range.mpr ?_, ?_⟩
    · rw [List.length_append]
      omega
    · rw [List.take_left, List.drop_left]
      exact hrest
  · rintro ⟨i, -, hrest⟩
    exact ⟨w.take i, w.drop i, (List.take_append_drop i w).symm, hrest⟩

instance (kept w : List UInt8) : Decidable (Refill kept w) :=
  decidable_of_iff _ (refill_iff kept w).symm

instance (kept w : List UInt8) : Decidable (Untorn kept w) :=
  inferInstanceAs (Decidable (kept = [] ∨ (∀ c ∈ w, isEol c = false) ∨ Refill kept w))

instance (ins : List ReplInput) (i : ReplInput) : Decidable (FitsStatement ins i) := by
  unfold FitsStatement
  infer_instance

instance (s : Console) (e : ConsoleEvent) : Decidable (s.Ready e) := by
  cases e <;> unfold Console.Ready <;> infer_instance

/-- `a` and `b`, each with a carriage return in a read of its own, from the port to
the loader; the second is typed while the chunk of the first runs. -/
def consoleTwoLines : List ConsoleEvent :=
  [.createTask, .createTask, .setHook, .uartRead (.ok [97, 13] (by decide)), .round, .round,
    .storeIndex, .notifyGive, .notifyTake, .loadIndex, .handleLine ⟨.ok, .ok 0, .error none⟩,
    .uartRead (.ok [98, 13] (by decide)), .round, .round, .storeIndex, .notifyGive, .finishChunk,
    .notifyTake, .loadIndex, .handleLine ⟨.ok, .ok 0, .error none⟩, .finishChunk]

theorem console_delivers_two :
    (console (CArray.fill CHAR_BUFFER_SIZE 0) 0).Always (fun s => s.Delivered ∧
      ∀ e, s.Enabled e → s.Ready e → ∃ s', s.step e = some s') consoleTwoLines :=
  console_delivers _ 0 consoleTwoLines (Machine.along_of_check _ _ (by decide +kernel))

/-- That run is one: the loader is given each line and its newline. -/
example : ((console (CArray.fill CHAR_BUFFER_SIZE 0) 0).run consoleTwoLines).map
    (fun s => s.repl.loads.map fun load => bytesOf load.2) = some [[97, 10], [98, 10]] := by
  decide +kernel

end CLIos
