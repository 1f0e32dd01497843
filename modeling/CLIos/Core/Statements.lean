import CLIos.Core.Repl

/-!
# Statement boundaries

A line settles its statement when the loop has run or rejected the text: the
accumulator should then start again at 0, and no byte of that text should be
loaded with a later line.  The exit for a runtime error goes back to the wait
without the reset that the other two make.
-/

namespace CLIos

open CMem Runs

/-- The loader did not accept the text of the line, and the loop answers `...`. -/
def ReplExit.waits : ReplExit → Bool
  | .incomplete | .retried => true
  | .ran | .runtimeError | .syntaxError => false

/-- The text loaded with the line `j` was run, failed or was rejected. -/
def Settled (ins : List ReplInput) (j : Nat) : Prop :=
  ∃ i, ins[j]? = some i ∧ i.turn.exit.waits = false

/-- The accumulator is empty unless the last line waits for more, and no text
shares a line with one settled before it. -/
structure Repl.Boundaries (ins : List ReplInput) (s : Repl) : Prop where
  reset : s.bufferMultilineLen = 0 ∨ ∃ i, ins.getLast? = some i ∧ i.turn.exit.waits = true
  fresh : ∀ j t n u, (j, t) ∈ s.loads → (n, u) ∈ s.loads → j < n → Settled ins j →
    ∀ c ∈ t, ∀ d ∈ u, c.line ≠ d.line

/-- The line can be copied, and its chunk raises no runtime error (unless the
length wraps to 0 by itself). -/
def Repl.Resets (s : Repl) (i : ReplInput) : Prop :=
  s.bufferMultilineLen + i.line.bytes.length ≤ 256 ∧
    (i.turn.exit = .runtimeError → (s.bufferMultilineLen + i.line.bytes.length + 1) % 256 = 0)

theorem Settled.lt {ins : List ReplInput} {j : Nat} (h : Settled ins j) : j < ins.length := by
  obtain ⟨i, hi, -⟩ := h
  exact (List.getElem?_eq_some_iff.mp hi).1

theorem settled_concat (ins : List ReplInput) (i : ReplInput) (j : Nat) :
    Settled (ins ++ [i]) j ↔ Settled ins j ∨ (j = ins.length ∧ i.turn.exit.waits = false) := by
  unfold Settled
  rcases Nat.lt_trichotomy j ins.length with hlt | rfl | hgt
  · rw [List.getElem?_append_left hlt]
    constructor
    · exact Or.inl
    · rintro (h | ⟨rfl, -⟩)
      · exact h
      · omega
  · simp
  · have h₁ : (ins ++ [i])[j]? = none :=
      List.getElem?_eq_none (by rw [List.length_append, List.length_singleton]; omega)
    have h₂ : ins[j]? = none := List.getElem?_eq_none (by omega)
    rw [h₁, h₂]
    constructor
    · rintro ⟨_, h, -⟩
      cases h
    · rintro (⟨_, h, -⟩ | ⟨rfl, -⟩)
      · cases h
      · omega

namespace Repl

/-- The bytes held belong to lines after every settled one. -/
structure Open (ins : List ReplInput) (s : Repl) : Prop where
  lt : s.bufferMultilineLen < 256
  count : s.lines = ins.length
  reset : s.bufferMultilineLen = 0 ∨ ∃ i, ins.getLast? = some i ∧ i.turn.exit.waits = true
  text : ∀ c ∈ s.text, c.line < ins.length ∧ ∀ j, Settled ins j → j < c.line
  loads : ∀ n u, (n, u) ∈ s.loads → n < ins.length ∧
    ∀ c ∈ u, c.line ≤ n ∧ ∀ j, j < n → Settled ins j → j < c.line

theorem open_start (top : Nat) : Open [] (start top) where
  lt := Nat.zero_lt_succ _
  count := rfl
  reset := Or.inl rfl
  text := by
    intro c hc
    have hc : c ∈ ([] : List Cell) := hc
    cases hc
  loads := by
    intro n u h
    cases h

theorem Open.boundaries {ins : List ReplInput} {s : Repl} (h : Open ins s) :
    Boundaries ins s where
  reset := h.reset
  fresh := by
    intro j t n u ht hu hlt hj c hc d hd heq
    have hcj := ((h.loads j t ht).2 c hc).1
    have hjd := ((h.loads n u hu).2 d hd).2 j hlt hj
    omega

theorem text_of_len_zero {s : Repl} (h : s.bufferMultilineLen = 0) : s.text = [] := by
  rw [text, h, CArray.first_zero]

/-- The texts of the turn: lines still open, and the new one. -/
theorem Open.texts {ins : List ReplInput} {s s₁ s₂ s' : Repl} {i : ReplInput} (h : Open ins s)
    (hmem : ∀ c ∈ s₁.text, c ∈ s.text ∨ c.line = s.lines) (hlines : s₁.lines = s.lines)
    (ht : Handled s i s₁ s₂ s') :
    ∀ c, c ∈ s₁.text ∨ c ∈ s₂.text → c.line ≤ ins.length ∧ ∀ j, Settled ins j → j < c.line := by
  have hnew : ∀ c : Cell, c.line = s.lines →
      c.line ≤ ins.length ∧ ∀ j, Settled ins j → j < c.line := by
    intro c hc
    rw [hc, h.count]
    exact ⟨Nat.le_refl _, fun j hj => hj.lt⟩
  have h₁ : ∀ c ∈ s₁.text, c.line ≤ ins.length ∧ ∀ j, Settled ins j → j < c.line := by
    intro c hc
    rcases hmem c hc with hc | hc
    · exact ⟨Nat.le_of_lt (h.text c hc).1, (h.text c hc).2⟩
    · exact hnew c hc
  rintro c (hc | hc)
  · exact h₁ c hc
  · rcases ht.mem₂ c hc with hc | rfl
    · exact h₁ c hc
    · exact hnew _ hlines

/-- The loop has settled the line, so the accumulator starts again at 0. -/
theorem Handled.len_eq_zero {s s₁ s₂ s' : Repl} {i : ReplInput} (ht : Handled s i s₁ s₂ s')
    (hlen : s₁.bufferMultilineLen = (s.bufferMultilineLen + i.line.bytes.length + 1) % 256)
    (hr : s.Resets i) (hw : i.turn.exit.waits = false) : s'.bufferMultilineLen = 0 := by
  rw [ht.len]
  cases he : i.turn.exit with
  | ran => rfl
  | syntaxError => rfl
  | runtimeError => exact hlen.trans (hr.2 he)
  | incomplete => rw [he] at hw; cases hw
  | retried => rw [he] at hw; cases hw

/-- A waiting loop has kept one of the two texts it loaded. -/
theorem Handled.text_of_waits {s s₁ s₂ s' : Repl} {i : ReplInput} (ht : Handled s i s₁ s₂ s')
    (hw : i.turn.exit.waits = true) : s'.text = s₁.text ∨ s'.text = s₂.text := by
  rw [ht.text]
  cases he : i.turn.exit with
  | incomplete => exact Or.inl rfl
  | retried => exact Or.inr rfl
  | _ => rw [he] at hw; cases hw

/-- A text loaded with the new line shares no line with one settled before it. -/
theorem Open.loads_step {ins : List ReplInput} {s s₁ s₂ s' : Repl} {i : ReplInput}
    (h : Open ins s) (hlines : s₁.lines = s.lines) (hloads : s₁.loads = s.loads)
    (ht : Handled s i s₁ s₂ s')
    (htexts : ∀ c, c ∈ s₁.text ∨ c ∈ s₂.text →
      c.line ≤ ins.length ∧ ∀ j, Settled ins j → j < c.line) :
    ∀ n u, (n, u) ∈ s'.loads → n < ins.length + 1 ∧
      ∀ c ∈ u, c.line ≤ n ∧ ∀ j, j < n → Settled (ins ++ [i]) j → j < c.line := by
  have hold : ∀ j, j < ins.length → Settled (ins ++ [i]) j → Settled ins j := by
    intro j hlt hj
    rcases (settled_concat ins i j).mp hj with hj | ⟨rfl, -⟩
    · exact hj
    · omega
  have hnew : ∀ u : List Cell, (∀ c ∈ u, c ∈ s₁.text ∨ c ∈ s₂.text) →
      s₁.lines < ins.length + 1 ∧ ∀ c ∈ u, c.line ≤ s₁.lines ∧
        ∀ j, j < s₁.lines → Settled (ins ++ [i]) j → j < c.line := by
    intro u hu
    rw [hlines, h.count]
    exact ⟨Nat.lt_succ_self _, fun c hc => ⟨(htexts c (hu c hc)).1,
      fun j hlt hj => (htexts c (hu c hc)).2 j (hold j hlt hj)⟩⟩
  intro n u hu
  rw [ht.loads, hloads] at hu
  rcases List.mem_append.mp hu with hu | hu
  · obtain ⟨hn, hcells⟩ := h.loads n u hu
    exact ⟨by omega, fun c hc => ⟨(hcells c hc).1,
      fun j hlt hj => (hcells c hc).2 j hlt (hold j (by omega) hj)⟩⟩
  · rcases List.mem_cons.mp hu with heq | hu
    · cases heq
      exact hnew _ fun c => Or.inl
    · split at hu
      · cases List.mem_singleton.mp hu
        exact hnew _ fun c => Or.inr
      · cases hu

theorem Open.step {ins : List ReplInput} {s : Repl} {i : ReplInput} (h : Open ins s)
    (hr : s.Resets i) : ∃ s', s.step i = some s' ∧ Open (ins ++ [i]) s' := by
  obtain ⟨s₁, h₁, hlen₁, -, hmem₁, hlines₁, hloads₁⟩ := s.appendLine_spec i.line hr.1
  obtain ⟨s₂, s', ht⟩ := handled h₁ (by omega)
  have htexts := h.texts hmem₁ hlines₁ ht
  have hlength : (ins ++ [i]).length = ins.length + 1 := by
    rw [List.length_append, List.length_singleton]
  refine ⟨s', ht.step, ?_, ?_, ?_, ?_, ?_⟩
  · have hlen₂ := ht.len₂
    rw [ht.len]
    cases i.turn.exit <;> simp only [ReplExit.keep] <;> omega
  · rw [ht.lines, hlines₁, h.count, hlength]
  · by_cases hw : i.turn.exit.waits = true
    · exact Or.inr ⟨i, List.getLast?_concat, hw⟩
    · exact Or.inl (ht.len_eq_zero hlen₁ hr (Bool.eq_false_iff.mpr hw))
  · intro c hc
    by_cases hw : i.turn.exit.waits = true
    · have hc : c ∈ s₁.text ∨ c ∈ s₂.text := by
        rcases ht.text_of_waits hw with heq | heq
        · exact Or.inl (heq ▸ hc)
        · exact Or.inr (heq ▸ hc)
      refine ⟨by have := (htexts c hc).1; omega, fun j hj => ?_⟩
      rcases (settled_concat ins i j).mp hj with hj | ⟨-, hj⟩
      · exact (htexts c hc).2 j hj
      · rw [hw] at hj
        cases hj
    · rw [text_of_len_zero (ht.len_eq_zero hlen₁ hr (Bool.eq_false_iff.mpr hw))] at hc
      cases hc
  · rw [hlength]
    exact h.loads_step hlines₁ hloads₁ ht htexts

/-- A step that leaves the accumulator empty after a runtime error is one whose
length wrapped. -/
theorem Open.resets {ins : List ReplInput} {s s' : Repl} {i : ReplInput} (h : Open ins s)
    (hstep : s.step i = some s') (hb : Boundaries (ins ++ [i]) s') : s.Resets i := by
  have hfit := step_fits hstep
  refine ⟨hfit, fun he => ?_⟩
  have hlt := h.lt
  obtain ⟨s₁, h₁, hlen₁, -⟩ := s.appendLine_spec i.line hfit
  obtain ⟨s₂, t, ht⟩ := handled h₁ (by omega)
  obtain rfl : t = s' := Option.some.inj (ht.step.symm.trans hstep)
  have hlen := ht.len
  rw [he] at hlen
  have hlen : t.bufferMultilineLen = s₁.bufferMultilineLen := hlen
  rcases hb.reset with h0 | ⟨j, hj, hw⟩
  · omega
  · obtain rfl : i = j := Option.some.inj (List.getLast?_concat.symm.trans hj)
    rw [he] at hw
    cases hw

end Repl

/-- **Statement boundaries.**  They are kept by exactly the runs in which no
chunk raises a runtime error and every line can be copied. -/
theorem statements_iff (top : Nat) (ins : List ReplInput) :
    (handleLuaCommand top).Throughout Repl.Boundaries ins ↔
      ∀ pre i, pre ++ [i] <+: ins → ∀ s, (handleLuaCommand top).run pre = some s →
        s.Resets i := by
  apply Machine.throughout_iff (I := Repl.Open)
  · exact Repl.open_start top
  · exact fun _ _ h => h.boundaries
  · exact fun _ s _ hs h hr => h.step (hr s hs)
  · intro l s a s' hs h hstep hb t ht
    obtain rfl : s = t := Option.some.inj (hs.symm.trans ht)
    exact h.resets hstep hb

/-- A line whose chunk raises a runtime error stays in the accumulator. -/
theorem statements_replayed :
    ¬ ∀ top ins, (handleLuaCommand top).Throughout Repl.Boundaries ins := by
  intro h
  let i : ReplInput := ⟨⟨[102, 40, 41], by decide, by decide⟩, .ok, .error, .ok⟩
  obtain ⟨s, hs, hb⟩ := h 0 [i] [i] List.prefix_rfl
  have hlen : ((handleLuaCommand 0).run [i]).map Repl.bufferMultilineLen = some 4 := by
    decide +kernel
  rw [hs, Option.map_some] at hlen
  have hlen : s.bufferMultilineLen = 4 := Option.some.inj hlen
  rcases hb.reset with h0 | ⟨j, hj, hw⟩
  · omega
  · obtain rfl : i = j := Option.some.inj hj
    cases hw

end CLIos
