import CLIos.Core.Repl

/-!
# Whether to wait for another line

A message of the loader says where it stopped: `near <eof>` if the text ended
there, else `near` and the text of the token, in quotes.  The loop looks for
`near <eof>` and for `expected` anywhere in the message.
-/

namespace CLIos

/-- Where the loader stopped. -/
inductive Token where
  | eof
  | quoted (src : List Char)
deriving DecidableEq

def Token.print : Token → List Char
  | .eof => "<eof>".toList
  | .quoted src => "'".toList ++ src ++ "'".toList

/-- A message of the loader, as its parts. -/
structure LoadMessage where
  chunk : List Char
  line : Nat
  reason : List Char
  token : Token

/-- `<chunk>:<line>: <reason> near <token>` -/
def LoadMessage.print (m : LoadMessage) : List Char :=
  m.chunk ++ ":".toList ++ Nat.toDigits 10 m.line ++ ": ".toList ++ m.reason ++ " ".toList ++
    ("near ".toList ++ m.token.print)

/-- The message ends in `near <eof>` exactly if the text ended. -/
theorem LoadMessage.eof_iff (m : LoadMessage) :
    "near <eof>".toList <:+ m.print ↔ m.token = .eof := by
  constructor
  · intro h
    cases ht : m.token with
    | eof => rfl
    | quoted src =>
      obtain ⟨front, hfront⟩ := h
      -- the one ends in a bracket, the other in the closing quote
      have hquote : ∃ l, m.print = l ++ "'".toList := by
        rw [print, ht, Token.print]
        exact ⟨_, by rw [← List.append_assoc, ← List.append_assoc]⟩
      obtain ⟨l, hl⟩ := hquote
      have hlast := congrArg List.getLast? (hfront.trans hl)
      rw [show "near <eof>".toList = "near <eof".toList ++ ['>'] from rfl, ← List.append_assoc,
        List.getLast?_concat, show "'".toList = [Char.ofNat 39] from rfl,
        List.getLast?_concat] at hlast
      exact absurd hlast (by decide)
  · intro h
    rw [print, h]
    exact List.suffix_append _ _

/-- The turn of a line whose text is rejected with the message. -/
def LoadMessage.turn (m : LoadMessage) (pcall : PcallResult) (reload : LoadResult) : LuaTurn :=
  ⟨.error (some m.print), pcall, reload⟩

/-- The text (`s₁`) is kept for the next line if it ended too early, and else
reported and dropped.  A text that is rejected is rejected with one more newline
too; of 255 bytes the second newline leaves another text, the empty one. -/
def LoadMessage.Decided (m : LoadMessage) (s s₁ : Repl) (l : Line) : Prop :=
  ∀ (pcall : PcallResult) (reload : LoadResult), (s₁.bufferMultilineLen < 255 → reload ≠ .ok) →
    ∃ s', s.step ⟨l, m.turn pcall reload⟩ = some s' ∧
      (m.token = .eof → (m.turn pcall reload).exit = .incomplete ∧ s'.text = s₁.text ∧
        s'.bufferMultilineLen = s₁.bufferMultilineLen) ∧
      (m.token ≠ .eof → (m.turn pcall reload).exit = .syntaxError ∧ s'.bufferMultilineLen = 0)

def LoadMessage.near (m : LoadMessage) : Bool := strstr m.print "near <eof>".toList

def LoadMessage.expected (m : LoadMessage) : Bool := strstr m.print "expected".toList

theorem LoadMessage.near_of_eof {m : LoadMessage} (h : m.token = .eof) : m.near = true :=
  decide_eq_true (m.eof_iff.mpr h).isInfix

theorem LoadMessage.exit_turn (m : LoadMessage) (pcall : PcallResult) (reload : LoadResult) :
    (m.turn pcall reload).exit =
      if m.near then
        if m.expected then .incomplete
        else match reload with | .ok => .retried | .error _ => .syntaxError
      else .syntaxError := rfl

theorem Repl.appendLine_lt {s s₁ : Repl} {l : Line} (h : s.appendLine l = some s₁) :
    s₁.bufferMultilineLen < 256 := by
  obtain ⟨b, -, h⟩ := Option.bind_eq_some_iff.mp h
  obtain ⟨b', -, h⟩ := Option.bind_eq_some_iff.mp h
  obtain ⟨b'', -, h⟩ := Option.bind_eq_some_iff.mp h
  obtain rfl := Option.some.inj h
  exact Nat.mod_lt _ (by omega)

/-- The decision is right if the loop takes the exit that it should take. -/
theorem LoadMessage.decided_iff_exit (m : LoadMessage) {s s₁ : Repl} {l : Line}
    (h : s.appendLine l = some s₁) : m.Decided s s₁ l ↔
      ∀ pcall (reload : LoadResult), (s₁.bufferMultilineLen < 255 → reload ≠ .ok) →
        (m.turn pcall reload).exit = if m.token = .eof then .incomplete else .syntaxError := by
  constructor
  · intro hd pcall reload hreload
    obtain ⟨s', -, heof, hne⟩ := hd pcall reload hreload
    by_cases ht : m.token = .eof
    · rw [if_pos ht]
      exact (heof ht).1
    · rw [if_neg ht]
      exact (hne ht).1
  · intro hexit pcall reload hreload
    obtain ⟨s₂, s', hs'⟩ := Repl.handled (i := ⟨l, m.turn pcall reload⟩) h (Repl.appendLine_lt h)
    have hlen := hs'.len
    have htext := hs'.text
    rw [hexit pcall reload hreload] at hlen htext ⊢
    refine ⟨s', hs'.step, fun ht => ?_, fun ht => ?_⟩
    · rw [if_pos ht] at hlen htext ⊢
      exact ⟨rfl, htext, hlen⟩
    · rw [if_neg ht] at hlen ⊢
      exact ⟨rfl, hlen⟩

/-- **Whether to wait.**  Where the text ended, the loop decides right exactly if
the message says `expected`.  Elsewhere it does exactly if the message does not
hold both words, nor `near <eof>` alone with a text of 255 bytes. -/
theorem continuation_iff (m : LoadMessage) (s s₁ : Repl) (l : Line)
    (h : s.appendLine l = some s₁) : m.Decided s s₁ l ↔
      (m.token = .eof → m.expected = true) ∧
        (m.token ≠ .eof → m.near = true →
          m.expected = false ∧ s₁.bufferMultilineLen < 255) := by
  rw [m.decided_iff_exit h]
  have herr : ∀ err, s₁.bufferMultilineLen < 255 → LoadResult.error err ≠ .ok :=
    fun _ _ h => by cases h
  simp only [m.exit_turn]
  by_cases ht : m.token = .eof
  · have hnear := LoadMessage.near_of_eof ht
    constructor
    · intro hexit
      refine ⟨fun _ => ?_, fun hne => absurd ht hne⟩
      have := hexit .error (.error none) (herr none)
      cases hexp : m.expected with
      | true => rfl
      | false => simp [hnear, hexp, ht] at this
    · rintro ⟨hexp, -⟩ pcall reload _
      simp [hnear, hexp ht, ht]
  · constructor
    · intro hexit
      refine ⟨fun heof => absurd heof ht, fun _ hnear => ⟨?_, ?_⟩⟩
      · have := hexit .error (.error none) (herr none)
        cases hexp : m.expected with
        | true => simp [hnear, hexp, ht] at this
        | false => rfl
      · by_contra hlen
        -- the empty text loads
        have := hexit .error .ok fun hlt => absurd hlt hlen
        cases hexp : m.expected <;> simp [hnear, hexp, ht] at this
    · rintro ⟨-, hcond⟩ pcall reload hreload
      cases hnear : m.near with
      | false => simp [ht]
      | true =>
        obtain ⟨hexp, hlt⟩ := hcond ht hnear
        cases reload with
        | ok => exact absurd rfl (hreload hlt)
        | error err => simp [hexp, ht]

/-- An unfinished long string: the text ended, and nothing was expected. -/
def unfinishedString : LoadMessage where
  chunk := "[string \"line\"]".toList
  line := 1
  reason := "unfinished long string (starting at line 1)".toList
  token := .eof

theorem continuation_unfinished :
    ¬ ∀ (m : LoadMessage) (s s₁ : Repl) (l : Line), s.appendLine l = some s₁ →
      m.Decided s s₁ l := by
  intro h
  let l : Line := ⟨[120, 61, 91, 91], by decide, by decide⟩
  obtain ⟨s₁, h₁, -⟩ := (Repl.start 0).appendLine_spec l (by decide)
  have hd := h unfinishedString (Repl.start 0) s₁ l h₁
  have hexit := (unfinishedString.decided_iff_exit h₁).mp hd .error (.error none)
    fun _ h => by cases h
  rw [LoadMessage.exit_turn] at hexit
  exact absurd hexit (by decide +kernel)

/-- `f(` and nothing more: an argument or `)` is expected where the text ended. -/
def unfinishedCall : LoadMessage where
  chunk := "[string \"line\"]".toList
  line := 1
  reason := "unexpected symbol".toList
  token := .eof

theorem continuation_unfinishedCall : ∃ s₁ : Repl,
    unfinishedCall.Decided (Repl.start 0) s₁ ⟨[102, 40], by decide, by decide⟩ := by
  obtain ⟨s₁, h₁, -⟩ := (Repl.start 0).appendLine_spec ⟨[102, 40], by decide, by decide⟩ (by decide)
  refine ⟨s₁, (continuation_iff unfinishedCall (Repl.start 0) s₁ _ h₁).mpr ⟨fun _ => ?_, ?_⟩⟩
  · decide +kernel
  · exact fun h => absurd rfl h

end CLIos
