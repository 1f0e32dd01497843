import CLIos.Core.Repl

/-!
# The multi-line accumulator

What the accumulator is for: the lines of the statement typed so far are held in
a list without bound (`held`), and the loader is given them with a newline after
each (`statementText`).  `buffer_multiline` holds this text, and its 8-bit length
the length of the text, exactly as long as the statement is short enough; the
loop has no test that it is.
-/

namespace CLIos

open CMem Runs

/-- The lines held after one more. -/
def holdLine (held : List (List UInt8)) (i : ReplInput) : List (List UInt8) :=
  i.turn.exit.keep [] (held ++ [i.line.bytes]) (held ++ [i.line.bytes, []])

def held (ins : List ReplInput) : List (List UInt8) := ins.foldl holdLine []

/-- The lines, each followed by a newline. -/
def statementText (lines : List (List UInt8)) : List UInt8 := lines.flatMap (· ++ [10])

/-- The texts that one line has the loader see. -/
def textsOf (held : List (List UInt8)) (i : ReplInput) : List (List UInt8) :=
  statementText (held ++ [i.line.bytes]) ::
    if i.turn.reloads then [statementText (held ++ [i.line.bytes, []])] else []

def textsFrom : List (List UInt8) → List ReplInput → List (List UInt8)
  | _, [] => []
  | held, i :: ins => textsOf held i ++ textsFrom (holdLine held i) ins

def bytesOf (cells : List Cell) : List UInt8 := cells.map Cell.byte

/-- The length is the length of the text held, and the loader has been given
exactly the lines held, each with its newline. -/
def Repl.Faithful (ins : List ReplInput) (s : Repl) : Prop :=
  s.bufferMultilineLen = (statementText (held ins)).length ∧
    s.loads.map (fun load => bytesOf load.2) = textsFrom [] ins

/-- The text held, the new line, its newline and, if the text is loaded again,
one more newline are at most 255 bytes. -/
def FitsStatement (ins : List ReplInput) (i : ReplInput) : Prop :=
  (statementText (held ins)).length + i.line.bytes.length + 1 +
    (if i.turn.reloads then 1 else 0) ≤ 255

/-! ## The unbounded accumulator -/

theorem held_concat (ins : List ReplInput) (i : ReplInput) :
    held (ins ++ [i]) = holdLine (held ins) i := by
  rw [held, List.foldl_append]
  rfl

theorem textsFrom_concat (lines : List (List UInt8)) (ins : List ReplInput) (i : ReplInput) :
    textsFrom lines (ins ++ [i]) =
      textsFrom lines ins ++ textsOf (ins.foldl holdLine lines) i := by
  induction ins generalizing lines with
  | nil => simp [textsFrom]
  | cons j ins ih =>
    show textsOf lines j ++ textsFrom (holdLine lines j) (ins ++ [i]) = _
    rw [ih, ← List.append_assoc]
    rfl

theorem statementText_concat (lines : List (List UInt8)) (l : List UInt8) :
    statementText (lines ++ [l]) = statementText lines ++ l ++ [10] := by
  simp [statementText]

theorem statementText_concat_nil (lines : List (List UInt8)) (l : List UInt8) :
    statementText (lines ++ [l, []]) = statementText lines ++ l ++ [10] ++ [10] := by
  simp [statementText]

theorem LuaTurn.reloads_of_retried (t : LuaTurn) (h : t.exit = .retried) : t.reloads = true := by
  obtain ⟨load, pcall, reload⟩ := t
  cases load with
  | ok => cases pcall <;> cases h
  | error err =>
    simp only [exit] at h
    by_cases hn : nearEof err = true
    · by_cases he : saysExpected err = true
      · simp [hn, he] at h
      · simp [reloads, hn, he]
    · simp [hn] at h

namespace Repl

/-- The buffer holds the text of the lines held. -/
structure Held (ins : List ReplInput) (s : Repl) : Prop where
  len : s.bufferMultilineLen = (statementText (held ins)).length
  lt : s.bufferMultilineLen < 256
  text : bytesOf s.text = statementText (held ins)
  loads : s.loads.map (fun load => bytesOf load.2) = textsFrom [] ins

theorem held_start (top : Nat) : Held [] (start top) := ⟨rfl, Nat.zero_lt_succ _, rfl, rfl⟩

theorem bytesOf_cellsOf (s : Repl) (l : Line) : bytesOf (s.cellsOf l) = l.bytes := by
  simp [bytesOf, cellsOf, Function.comp_def]

/-- The two texts that a line has the loader see, in the buffer. -/
theorem Held.texts {ins : List ReplInput} {s s₁ s₂ s' : Repl} {i : ReplInput} (h : Held ins s)
    (hfit : FitsStatement ins i)
    (hlen₁ : s₁.bufferMultilineLen = s.bufferMultilineLen + i.line.bytes.length + 1)
    (htext₁ : s₁.text = s.text ++ s.cellsOf i.line ++ [s.newline]) (ht : Handled s i s₁ s₂ s') :
    (bytesOf s₁.text = statementText (held ins ++ [i.line.bytes]) ∧
      s₁.bufferMultilineLen = (statementText (held ins ++ [i.line.bytes])).length) ∧
    (i.turn.reloads = true → bytesOf s₂.text = statementText (held ins ++ [i.line.bytes, []]) ∧
      s₂.bufferMultilineLen = (statementText (held ins ++ [i.line.bytes, []])).length) := by
  unfold FitsStatement at hfit
  have hlen := h.len
  have hbytes₁ : bytesOf s₁.text = statementText (held ins ++ [i.line.bytes]) := by
    rw [htext₁, statementText_concat, ← h.text, ← bytesOf_cellsOf s]
    simp [bytesOf, newline]
  have hlen₁' : s₁.bufferMultilineLen = (statementText (held ins ++ [i.line.bytes])).length := by
    rw [hlen₁, statementText_concat]
    simp only [List.length_append, List.length_singleton]
    omega
  refine ⟨⟨hbytes₁, hlen₁'⟩, fun hr => ?_⟩
  rw [hr, if_pos rfl] at hfit
  rw [ht.text₂ (by omega), ht.len₂, Nat.mod_eq_of_lt (by omega), hlen₁',
    statementText_concat_nil, ← statementText_concat, ← hbytes₁]
  simp [bytesOf, newline]

/-- A line that fits keeps the buffer faithful. -/
theorem Held.step {ins : List ReplInput} {s : Repl} {i : ReplInput} (h : Held ins s)
    (hfit : FitsStatement ins i) : ∃ s', s.step i = some s' ∧ Held (ins ++ [i]) s' := by
  have hshort : s.bufferMultilineLen + i.line.bytes.length + 1 ≤ 255 := by
    unfold FitsStatement at hfit
    rw [h.len]
    omega
  obtain ⟨s₁, h₁, hlen₁, htext₁, -, hlines₁, hloads₁⟩ := s.appendLine_spec i.line (by omega)
  rw [Nat.mod_eq_of_lt (by omega)] at hlen₁
  obtain ⟨s₂, s', ht⟩ := handled h₁ (by omega)
  obtain ⟨⟨hbytes₁, hlen₁'⟩, hagain⟩ := h.texts hfit hlen₁ (htext₁ (by omega)) ht
  refine ⟨s', ht.step, ?_, ?_, ?_, ?_⟩
  · rw [ht.len, held_concat, holdLine]
    cases he : i.turn.exit with
    | ran => rfl
    | syntaxError => rfl
    | runtimeError => exact hlen₁'
    | incomplete => exact hlen₁'
    | retried => exact (hagain (i.turn.reloads_of_retried he)).2
  · have hlen₂ := ht.len₂
    rw [ht.len]
    cases i.turn.exit <;> simp only [ReplExit.keep] <;> omega
  · rw [ht.text, held_concat, holdLine]
    cases he : i.turn.exit with
    | ran => rfl
    | syntaxError => rfl
    | runtimeError => exact hbytes₁
    | incomplete => exact hbytes₁
    | retried => exact (hagain (i.turn.reloads_of_retried he)).1
  · rw [ht.loads, hloads₁, List.map_append, h.loads, textsFrom_concat]
    congr 1
    show bytesOf s₁.text :: _ = textsOf (held ins) i
    rw [textsOf, hbytes₁]
    by_cases hr : i.turn.reloads = true
    · rw [if_pos hr, if_pos hr, ← (hagain hr).1]
      rfl
    · rw [if_neg hr, if_neg hr]
      rfl

/-- A text longer than the array allows is given to the loader by no step. -/
theorem step_loads_lt {s s' : Repl} {i : ReplInput} (h : s.step i = some s') :
    ∃ new, s'.loads = s.loads ++ new ∧ ∀ load ∈ new, load.2.length < 256 := by
  obtain ⟨s₁, h₁, hlen₁, -, -, -, hloads₁⟩ := s.appendLine_spec i.line (step_fits h)
  obtain ⟨s₂, t, ht⟩ := handled h₁ (by omega)
  obtain rfl : t = s' := Option.some.inj (ht.step.symm.trans h)
  refine ⟨_, by rw [ht.loads, hloads₁], ?_⟩
  have hshort : ∀ r : Repl, r.bufferMultilineLen < 256 → r.text.length < 256 := by
    intro r hr
    show (r.bufferMultiline.first r.bufferMultilineLen).length < 256
    rw [CArray.length_first _ _ (show _ ≤ 256 by omega)]
    exact hr
  intro load hload
  rcases List.mem_cons.mp hload with rfl | hload
  · exact hshort s₁ (by omega)
  · split at hload
    · rw [List.mem_singleton.mp hload]
      exact hshort s₂ (by rw [ht.len₂]; omega)
    · cases hload

/-- A statement that is too long is not given to the loader whole. -/
theorem Held.fits {ins : List ReplInput} {s s' : Repl} {i : ReplInput} (h : Held ins s)
    (hstep : s.step i = some s') (hf : Faithful (ins ++ [i]) s') : FitsStatement ins i := by
  obtain ⟨new, hnew, hshort⟩ := step_loads_lt hstep
  have htexts : new.map (fun load => bytesOf load.2) = textsOf (held ins) i := by
    have hloads := hf.2
    rw [hnew, List.map_append, h.loads, textsFrom_concat] at hloads
    exact List.append_cancel_left hloads
  have hlt : ∀ t ∈ textsOf (held ins) i, t.length < 256 := by
    intro t ht
    rw [← htexts] at ht
    obtain ⟨load, hload, rfl⟩ := List.mem_map.mp ht
    show (bytesOf load.2).length < 256
    rw [bytesOf, List.length_map]
    exact hshort load hload
  unfold FitsStatement
  by_cases hr : i.turn.reloads = true
  · have := hlt _ (by rw [textsOf, if_pos hr]; exact List.mem_cons_of_mem _ (List.mem_singleton_self _))
    rw [statementText_concat_nil] at this
    simp only [List.length_append, List.length_singleton] at this
    rw [if_pos hr]
    omega
  · have := hlt _ (List.mem_cons_self ..)
    rw [statementText_concat] at this
    simp only [List.length_append, List.length_singleton] at this
    rw [if_neg hr]
    omega

end Repl

/-- **The accumulator.**  Every write stays inside `buffer_multiline`, its length
is the length of the text held and the loader is given exactly that text, as
long as every statement of the run stays below 256 bytes; and only so long. -/
theorem accumulator_iff (top : Nat) (ins : List ReplInput) :
    (handleLuaCommand top).Throughout Repl.Faithful ins ↔
      ∀ pre i, pre ++ [i] <+: ins → FitsStatement pre i := by
  apply Machine.throughout_iff (I := Repl.Held)
  · exact Repl.held_start top
  · exact fun _ _ h => ⟨h.len, h.loads⟩
  · exact fun _ _ _ _ h hfit => h.step hfit
  · exact fun _ _ _ _ _ h hstep hf => h.fits hstep hf

/-- A line of 63 bytes that leaves its statement open: `do` 21 times. -/
def openLine : ReplInput where
  line := ⟨(List.replicate 21 [100, 111, 32]).flatten, by decide, by decide⟩
  turn := ⟨.error (some "line:1: 'end' expected near <eof>".toList), .error, .error none⟩

/-- The newline of the fourth such line wraps the length to 0. -/
theorem accumulator_wraps :
    ¬ ∀ top ins, (handleLuaCommand top).Throughout Repl.Faithful ins := by
  intro h
  obtain ⟨s, hs, hlen, -⟩ := h 0 (List.replicate 4 openLine) _ List.prefix_rfl
  have hwrap : ((handleLuaCommand 0).run (List.replicate 4 openLine)).map
      Repl.bufferMultilineLen = some 0 := by decide +kernel
  have hheld : (statementText (held (List.replicate 4 openLine))).length = 256 := by
    decide +kernel
  rw [hs, Option.map_some, hlen, hheld] at hwrap
  cases hwrap

end CLIos
