import CLIos.Core.ConsoleProgress
import CLIos.Core.Continuation
import CLIos.Lib.Cut

/-!
# The program typed is the program run

What the console is, seen from outside: an interpreter of the text typed.  The
lines make statements, each as short as it can be: it ends with the first line
with which the loader no longer says that the text ended too early.  The
statements that load are run, in order; the others are dropped.

The loader is a function from the text to its verdict.  A line of the run
`Follows` it if the Lua calls of its turn end as the loader says, the message
tells the loop what it has to know (`near <eof>` with `expected` where the text
ended, and not both elsewhere), and its chunk raises no error.
-/

namespace CLIos

open CMem Runs Text Cut

/-- The message with which a text is rejected, or nothing if it loads. -/
abbrev Loader : Type := List UInt8 → Option LoadMessage

namespace Loader

def result (L : Loader) (text : List UInt8) : LoadResult :=
  match L text with
  | none => .ok
  | some m => .error (some m.print)

def accepts (L : Loader) (lines : List (List UInt8)) : Bool := (L (statementText lines)).isNone

/-- The lines are a whole statement, right or wrong. -/
def settles (L : Loader) (lines : List (List UInt8)) : Bool :=
  match L (statementText lines) with
  | none => true
  | some m => decide (m.token ≠ .eof)

/-- The texts of the statements that load. -/
def chunks (L : Loader) (statements : List (List (List UInt8))) : List (List UInt8) :=
  (statements.filter L.accepts).map statementText

end Loader

/-- The text loads, and so `lua_pcall` is called with it. -/
def LuaTurn.loaded (t : LuaTurn) : Bool :=
  match t.load with
  | .ok => true
  | .error _ => false

theorem LuaTurn.reloads_of_loaded (t : LuaTurn) (h : t.loaded = true) : t.reloads = false := by
  obtain ⟨load, pcall, reload⟩ := t
  cases load with
  | ok => rfl
  | error => cases h

/-- The chunks that `lua_pcall` was called with. -/
def Repl.executed (s : Repl) (ins : List ReplInput) : List (List UInt8) :=
  (s.loads.filter fun load => (ins[load.1]?).any fun i => i.turn.loaded).map
    fun load => bytesOf load.2

/-- The line is handled as the loader and the loop are meant to. -/
structure Follows (L : Loader) (ins : List ReplInput) (i : ReplInput) : Prop where
  load : i.turn.load = L.result (statementText (held ins ++ [i.line.bytes]))
  ended : ∀ m, L (statementText (held ins ++ [i.line.bytes])) = some m → m.token = .eof →
    m.expected = true
  /-- a text that is wrong is wrong with one newline more -/
  wrong : ∀ m, L (statementText (held ins ++ [i.line.bytes])) = some m → m.token ≠ .eof →
    m.near = true → m.expected = false ∧ i.turn.reload ≠ .ok
  pcall : i.turn.pcall ≠ .error

theorem Loader.accepts_settles {L : Loader} {lines : List (List UInt8)}
    (h : L.accepts lines = true) : L.settles lines = true := by
  rw [accepts, Option.isNone_iff_eq_none] at h
  rw [settles, h]

/-- The exit that the loop takes is the verdict of the loader. -/
theorem Follows.exit {L : Loader} {ins : List ReplInput} {i : ReplInput} (h : Follows L ins i) :
    i.turn.loaded = L.accepts (held ins ++ [i.line.bytes]) ∧
      held (ins ++ [i]) = if L.settles (held ins ++ [i.line.bytes]) then []
        else held ins ++ [i.line.bytes] := by
  obtain ⟨line, load, pcall, reload⟩ := i
  have hload : load = _ := h.load
  rw [held_concat, holdLine, Loader.accepts, Loader.settles, LuaTurn.loaded]
  cases hL : L (statementText (held ins ++ [line.bytes])) with
  | none =>
    rw [Loader.result, hL] at hload
    subst hload
    cases pcall with
    | ok n => exact ⟨rfl, rfl⟩
    | error => exact absurd rfl h.pcall
  | some m =>
    rw [Loader.result, hL] at hload
    subst hload
    refine ⟨rfl, ?_⟩
    have hexit := m.exit_turn pcall reload
    have hturn : (⟨.error (some m.print), pcall, reload⟩ : LuaTurn) = m.turn pcall reload := rfl
    rw [hturn, hexit]
    by_cases ht : m.token = .eof
    · rw [LoadMessage.near_of_eof ht, h.ended m hL ht]
      simp [ht, ReplExit.keep]
    · cases hnear : m.near with
      | false => simp [ht, ReplExit.keep]
      | true =>
        obtain ⟨hexp, hreload⟩ := h.wrong m hL ht hnear
        cases reload with
        | ok => exact absurd rfl hreload
        | error err => simp [hexp, ht, ReplExit.keep]

namespace Repl

/-- What a line that fits adds to the texts loaded. -/
theorem Held.step_loads {ins : List ReplInput} {s s' : Repl} {i : ReplInput} (h : Held ins s)
    (hfit : FitsStatement ins i) (hs : s.step i = some s') :
    s'.lines = s.lines + 1 ∧ ∃ t u, bytesOf t = statementText (held ins ++ [i.line.bytes]) ∧
      s'.loads = s.loads ++ (s.lines, t) :: if i.turn.reloads then [(s.lines, u)] else [] := by
  have hshort : s.bufferMultilineLen + i.line.bytes.length + 1 ≤ 255 := by
    unfold FitsStatement at hfit
    rw [h.len]
    omega
  obtain ⟨s₁, h₁, hlen₁, htext₁, -, hlines₁, hloads₁⟩ := s.appendLine_spec i.line (by omega)
  rw [Nat.mod_eq_of_lt (by omega)] at hlen₁
  obtain ⟨s₂, t, ht⟩ := handled h₁ (by omega)
  obtain rfl : t = s' := Option.some.inj (ht.step.symm.trans hs)
  obtain ⟨⟨hbytes₁, -⟩, -⟩ := h.texts hfit hlen₁ (htext₁ (by omega)) ht
  refine ⟨by rw [ht.lines, hlines₁], s₁.text, s₂.text, hbytes₁, ?_⟩
  rw [ht.loads, hloads₁, hlines₁]

/-- After the lines `ins` the loop has run the statements that they make, and
holds what is left of them. -/
structure Interprets (L : Loader) (ins : List ReplInput) (s : Repl) : Prop where
  held : Held ins s
  lines : s.lines = ins.length
  loads : ∀ load ∈ s.loads, load.1 < ins.length
  rest : CLIos.held ins = (cut L.settles (ins.map fun i => i.line.bytes)).rest
  executed : s.executed ins = L.chunks (cut L.settles (ins.map fun i => i.line.bytes)).closed

theorem interprets_start (L : Loader) (top : Nat) : Interprets L [] (start top) :=
  ⟨held_start top, rfl, fun _ h => absurd h List.not_mem_nil, rfl, rfl⟩

/-- The new line calls `lua_pcall` if its text loads. -/
theorem executed_concat {ins : List ReplInput} {s s' : Repl} {i : ReplInput} {t u : List Cell}
    (hlines : s.lines = ins.length) (hold : ∀ load ∈ s.loads, load.1 < ins.length)
    (hloads : s'.loads = s.loads ++ (s.lines, t) :: if i.turn.reloads then [(s.lines, u)] else []) :
    s'.executed (ins ++ [i]) =
      s.executed ins ++ if i.turn.loaded then [bytesOf t] else [] := by
  have hfilter : s.loads.filter (fun load => ((ins ++ [i])[load.1]?).any fun i => i.turn.loaded) =
      s.loads.filter fun load => (ins[load.1]?).any fun i => i.turn.loaded := by
    refine List.filter_congr fun load hload => ?_
    rw [List.getElem?_append_left (hold load hload)]
  have hnew : (ins ++ [i])[s.lines]? = some i := by
    rw [hlines, List.getElem?_concat_length]
  rw [executed, executed, hloads, List.filter_append, List.map_append, hfilter]
  congr 1
  cases hl : i.turn.loaded with
  | true =>
    simp [hnew, hl, i.turn.reloads_of_loaded hl]
  | false =>
    cases hr : i.turn.reloads <;> simp [hnew, hl]

theorem Interprets.step {L : Loader} {ins : List ReplInput} {s s' : Repl} {i : ReplInput}
    (h : Interprets L ins s) (hfit : FitsStatement ins i) (hfollows : Follows L ins i)
    (hs : s.step i = some s') : Interprets L (ins ++ [i]) s' := by
  obtain ⟨s₁, hs₁, hheld⟩ := h.held.step hfit
  obtain rfl : s₁ = s' := Option.some.inj (hs₁.symm.trans hs)
  obtain ⟨hlines, t, u, htext, hloads⟩ := h.held.step_loads hfit hs
  obtain ⟨hloaded, hrest⟩ := hfollows.exit
  have hlen : (ins ++ [i]).length = ins.length + 1 := by
    rw [List.length_append, List.length_singleton]
  refine ⟨hheld, by rw [hlines, h.lines, hlen], ?_, ?_, ?_⟩
  · intro load hload
    rw [hloads] at hload
    rcases List.mem_append.mp hload with hload | hload
    · have := h.loads load hload
      omega
    · have hnum : load.1 = s.lines := by
        split at hload <;> simp at hload
        · rcases hload with rfl | rfl <;> rfl
        · rw [hload]
      have := h.lines
      omega
  · rw [List.map_append, List.map_singleton, rest_concat, ← h.rest, hrest]
  · rw [executed_concat h.lines h.loads hloads, h.executed, List.map_append, List.map_singleton,
      closed_concat, ← h.rest, htext, hloaded, Loader.chunks, Loader.chunks, List.filter_append,
      List.map_append]
    congr 1
    cases hacc : L.accepts (CLIos.held ins ++ [i.line.bytes]) with
    | true => simp [Loader.accepts_settles hacc, hacc]
    | false =>
      cases hset : L.settles (CLIos.held ins ++ [i.line.bytes]) <;> simp [hacc]

end Repl

namespace Console

def executed (s : Console) : List (List UInt8) := s.repl.executed s.handled

/-- The line handled follows the loader. -/
def Follows (L : Loader) (s : Console) : ConsoleEvent → Prop
  | .handleLine turn => ∀ line ∈ s.loadedLine, CLIos.Follows L s.handled ⟨line, turn⟩
  | _ => True

/-- The console has run the first statements of those typed, and all of them when
it is quiet; `p` is the text typed, cut into statements. -/
structure RunsProgram (L : Loader) (s : Console) : Prop where
  first : ∀ p, IsCut L.settles (typedLines s.stream) p → s.executed <+: L.chunks p.closed
  all : ∀ p, IsCut L.settles (typedLines s.stream) p → s.Quiet → s.executed = L.chunks p.closed

/-- Only the step that handles a line changes what is handled. -/
theorem step_repl {s s' : Console} {e : ConsoleEvent} (hs : s.step e = some s') :
    (s'.repl = s.repl ∧ s'.handled = s.handled) ∨
      ∃ turn line, e = .handleLine turn ∧ s.loadedLine = some line ∧
        s.repl.step ⟨line, turn⟩ = some s'.repl ∧ s'.handled = s.handled ++ [⟨line, turn⟩] := by
  cases e with
  | uartRead r =>
    simp only [Console.step] at hs
    split at hs
    · obtain ⟨input, -, rfl⟩ := Option.map_eq_some_iff.mp hs
      exact Or.inl ⟨rfl, rfl⟩
    · cases hs
  | round =>
    simp only [Console.step] at hs
    split at hs
    · obtain ⟨shell, -, hs⟩ := Option.bind_eq_some_iff.mp hs
      split at hs
      · cases hs
        exact Or.inl ⟨rfl, rfl⟩
      · obtain ⟨t, -, rfl⟩ := Option.map_eq_some_iff.mp hs
        exact Or.inl ⟨rfl, rfl⟩
    · cases hs
  | handleLine turn =>
    obtain ⟨line, hline, hs⟩ := Option.bind_eq_some_iff.mp hs
    obtain ⟨repl, hrepl, hs⟩ := Option.bind_eq_some_iff.mp hs
    obtain ⟨t, -, rfl⟩ := Option.map_eq_some_iff.mp hs
    exact Or.inr ⟨turn, line, rfl, hline, hrepl, rfl⟩
  | createTask | storeIndex | notifyGive | setHook | notifyTake | loadIndex | finishChunk =>
    obtain ⟨t, -, rfl⟩ := Option.map_eq_some_iff.mp hs
    exact Or.inl ⟨rfl, rfl⟩

/-- The console in order, and its loop an interpreter of the lines handled. -/
structure Interprets (L : Loader) (s : Console) : Prop where
  inv : s.Inv
  repl : s.repl.Interprets L s.handled

theorem interprets_start (L : Loader) (stack : CArray UInt8 CHAR_BUFFER_SIZE) (top : Nat) :
    (start stack top).Interprets L :=
  ⟨inv_start stack top, Repl.interprets_start L top⟩

theorem Interprets.step {L : Loader} {s s' : Console} {e : ConsoleEvent} (h : s.Interprets L)
    (hready : s.Ready e) (hfollows : s.Follows L e) (hs : s.step e = some s') :
    s'.Interprets L where
  inv := h.inv.step hready hs
  repl := by
    rcases step_repl hs with ⟨hrepl, hhandled⟩ | ⟨turn, line, rfl, hline, hrepl, hhandled⟩
    · rw [hrepl, hhandled]
      exact h.repl
    · rw [hhandled]
      exact h.repl.step (hready line hline) (hfollows line hline) hrepl

theorem Interprets.executed {L : Loader} {s : Console} (h : s.Interprets L) :
    s.executed = L.chunks (cut L.settles s.handledLines).closed := h.repl.executed

theorem chunks_mono (L : Loader) {as bs : List (List UInt8)} (h : as <+: bs) :
    L.chunks (cut L.settles as).closed <+: L.chunks (cut L.settles bs).closed :=
  ((closed_mono L.settles h).filter L.accepts).map statementText

theorem Interprets.runsProgram {L : Loader} {s : Console} (h : s.Interprets L) :
    s.RunsProgram L where
  first := by
    intro p hp
    rw [h.executed, isCut_iff.mp hp]
    exact chunks_mono L h.inv.delivered.lines
  all := by
    intro p hp hquiet
    rw [h.executed, isCut_iff.mp hp, h.inv.delivered.all hquiet]

end Console

/-- **The console is an interpreter.**  In every interleaving of its tasks in
which every step is ready and the lines handled follow the loader, the chunks
run are the first of the statements typed that load, whole and in order, and all
of them when the console is quiet. -/
theorem console_runs_program (L : Loader) (stack : CArray UInt8 CHAR_BUFFER_SIZE) (top : Nat)
    (es : List ConsoleEvent)
    (h : (console stack top).Along (fun s e => s.Ready e ∧ s.Follows L e) es) :
    (console stack top).Always (Console.RunsProgram L) es :=
  Machine.always_mono (fun _ hI => hI.runsProgram)
    (Machine.always_of_along (Console.interprets_start L stack top)
      (fun _ _ _ hI hr hs => hI.step hr.1 hr.2 hs) es h)

/-- **What is typed is run.**  In a fair execution of such steps every statement
typed that loads is run at some moment. -/
theorem console_runs_typed (L : Loader) (stack : CArray UInt8 CHAR_BUFFER_SIZE) (top : Nat)
    (E : Execution (console stack top)) (h : E.Along fun s e => s.Ready e ∧ s.Follows L e)
    (hfair : E.Fair ConsoleEvent.task Console.HasTurn) (n : Nat) (p : Pieces (List UInt8))
    (hp : IsCut L.settles (typedLines (E.state n).stream) p) :
    ∃ m, n ≤ m ∧ L.chunks p.closed <+: (E.state m).executed := by
  have hready : E.Along Console.Ready := fun k e he => (h k e he).1
  have hstart : (E.state 0).Interprets L := by
    rw [E.start]
    exact Console.interprets_start L stack top
  obtain ⟨m, hm, hlines, -⟩ := Console.handles_typed hready hfair n
  have hinterprets : (E.state m).Interprets L :=
    Execution.always_from h (fun _ _ _ hI hr hs => hI.step hr.1 hr.2 hs) hstart m (Nat.zero_le m)
  refine ⟨m, hm, ?_⟩
  rw [hinterprets.executed, isCut_iff.mp hp]
  exact Console.chunks_mono L hlines

/-! ## A statement of two lines -/

deriving instance DecidableEq for LoadResult, PcallResult

/-- What the loader says of the text, as a test. -/
def followsMessage (i : ReplInput) : Option LoadMessage → Bool
  | none => true
  | some m =>
    if m.token = .eof then m.expected
    else !m.near || (!m.expected && decide (i.turn.reload ≠ .ok))

theorem follows_iff (L : Loader) (ins : List ReplInput) (i : ReplInput) : Follows L ins i ↔
    i.turn.load = L.result (statementText (held ins ++ [i.line.bytes])) ∧
      followsMessage i (L (statementText (held ins ++ [i.line.bytes]))) = true ∧
      i.turn.pcall ≠ .error := by
  constructor
  · rintro ⟨hload, hended, hwrong, hpcall⟩
    refine ⟨hload, ?_, hpcall⟩
    cases hL : L (statementText (held ins ++ [i.line.bytes])) with
    | none => rfl
    | some m =>
      by_cases ht : m.token = .eof
      · simp [followsMessage, ht, hended m hL ht]
      · cases hnear : m.near with
        | false => simp [followsMessage, ht, hnear]
        | true => simp [followsMessage, ht, hnear, hwrong m hL ht hnear]
  · rintro ⟨hload, hmessage, hpcall⟩
    refine ⟨hload, fun m hL ht => ?_, fun m hL ht hnear => ?_, hpcall⟩
    · simpa [hL, followsMessage, ht] using hmessage
    · simpa [hL, followsMessage, ht, hnear] using hmessage

instance (L : Loader) (ins : List ReplInput) (i : ReplInput) : Decidable (Follows L ins i) :=
  decidable_of_iff _ (follows_iff L ins i).symm

instance (L : Loader) (s : Console) : (e : ConsoleEvent) → Decidable (s.Follows L e)
  | .handleLine turn => inferInstanceAs
    (Decidable (∀ line ∈ s.loadedLine, Follows L s.handled ⟨line, turn⟩))
  | .uartRead _ | .createTask | .round | .storeIndex | .notifyGive | .setHook | .notifyTake
  | .loadIndex | .finishChunk => inferInstanceAs (Decidable True)

def endExpected : LoadMessage where
  chunk := "line".toList
  line := 1
  reason := "'end' expected".toList
  token := .eof

/-- All there is to this language is `do`, a newline, `end` and a newline. -/
def doEndLoader : Loader := fun text =>
  if text = [100, 111, 10, 101, 110, 100, 10] then none else some endExpected

/-- `do` and `end`, each in a read of its own. -/
def consoleDoEnd : List ConsoleEvent :=
  [.createTask, .createTask, .setHook, .uartRead (.ok [100, 111, 13] (by decide)), .round, .round,
    .round, .storeIndex, .notifyGive, .notifyTake, .loadIndex,
    .handleLine ⟨.error (some endExpected.print), .ok 0, .error none⟩, .finishChunk,
    .uartRead (.ok [101, 110, 100, 13] (by decide)), .round, .round, .round, .round, .storeIndex,
    .notifyGive, .notifyTake, .loadIndex, .handleLine ⟨.ok, .ok 0, .error none⟩, .finishChunk]

theorem console_runs_program_doEnd :
    (console (CArray.fill CHAR_BUFFER_SIZE 0) 0).Always (Console.RunsProgram doEndLoader)
      consoleDoEnd :=
  console_runs_program _ _ 0 consoleDoEnd (Machine.along_of_check _ _ (by decide +kernel))

/-- The same lines, and nothing typed from then on. -/
theorem console_runs_typed_doEnd : ∃ E : Execution (console (CArray.fill CHAR_BUFFER_SIZE 0) 0),
    (∀ n, E.label n = consoleDoEnd[n]?) ∧ ∀ n p,
      IsCut doEndLoader.settles (typedLines (E.state n).stream) p →
        ∃ m, n ≤ m ∧ doEndLoader.chunks p.closed <+: (E.state m).executed := by
  have hquiet : ((console (CArray.fill CHAR_BUFFER_SIZE 0) 0).run consoleDoEnd).any (fun s =>
      decide (s.Quiet ∧ s.handoff.main = .returned)) = true := by decide +kernel
  obtain ⟨E, hlabel, hfair, halong⟩ := Console.execution_of_quiet hquiet
  have h : E.Along fun s e => s.Ready e ∧ s.Follows doEndLoader e :=
    halong _ (Machine.along_of_check _ _ (by decide +kernel))
  exact ⟨E, hlabel, console_runs_typed doEndLoader _ 0 E h hfair⟩

/-- It is run once, when its last line is handled. -/
example : ((console (CArray.fill CHAR_BUFFER_SIZE 0) 0).run consoleDoEnd).map Console.executed =
    some [[100, 111, 10, 101, 110, 100, 10]] := by
  decide +kernel

end CLIos
