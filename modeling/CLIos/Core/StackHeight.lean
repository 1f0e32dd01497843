import CLIos.Core.Repl

/-!
# The height of the stack between two lines

`lua_pcall` is called with `LUA_MULTRET`: what a chunk returns stays on the
stack.  Every other path pops what it pushed, and the path that loads the text a
second time empties the stack.  `handleLuaCommand` keeps the height in `top`.
-/

namespace CLIos

open Runs

/-- The values that a chunk leaves on the stack. -/
def LuaTurn.results (t : LuaTurn) : Nat :=
  match t.load, t.pcall with
  | .ok, .ok nresults => nresults
  | _, _ => 0

/-- The values left by the chunks of some lines. -/
def resultsOf : List ReplInput → Nat
  | [] => 0
  | i :: ins => i.turn.results + resultsOf ins

def NoReload (ins : List ReplInput) : Prop := ∀ i ∈ ins, i.turn.reloads = false

/-- No chunk returns a value before the first text that is loaded twice, and
between two of them the chunks return no more than `top` values. -/
structure Balanced (top : Nat) (ins : List ReplInput) : Prop where
  before : ∀ l, l <+: ins → NoReload l → resultsOf l = 0
  after : ∀ l i m, l ++ i :: m <+: ins → i.turn.reloads = true → NoReload m → resultsOf m ≤ top

theorem resultsOf_concat (ins : List ReplInput) (i : ReplInput) :
    resultsOf (ins ++ [i]) = resultsOf ins + i.turn.results := by
  induction ins with
  | nil => exact Nat.add_comm _ _
  | cons j ins ih =>
    rw [List.cons_append, resultsOf, ih, resultsOf]
    omega

theorem noReload_concat (ins : List ReplInput) (i : ReplInput) :
    NoReload (ins ++ [i]) ↔ NoReload ins ∧ i.turn.reloads = false := by
  simp [NoReload, or_imp, forall_and]

theorem Repl.step_top {s s' : Repl} {i : ReplInput} (h : s.step i = some s') :
    s'.top = if i.turn.reloads then 0 else s.top + i.turn.results := by
  obtain ⟨s₁, t, happ, hout, rfl⟩ := Repl.step_cases h
  have h₁ : s₁.top = s.top := by rw [Repl.appendLine_frame happ]
  show t.top = _
  rw [← h₁]
  cases hout with
  | ran n hload hpcall =>
    simp [LuaTurn.reloads, LuaTurn.results, hload, hpcall, Repl.runChunk, Repl.resetFlagHook,
      Repl.loadBuffer]
  | runtimeError hload hpcall =>
    simp [LuaTurn.reloads, LuaTurn.results, hload, hpcall, Repl.runChunk, Repl.loadBuffer]
  | incomplete err hload heof hexp =>
    simp [LuaTurn.reloads, LuaTurn.results, hload, heof, hexp, Repl.loadBuffer]
  | retried err s₂ hload heof hexp =>
    simp [LuaTurn.reloads, hload, heof, hexp]
  | rejected err err₂ s₂ hload heof hexp =>
    simp [LuaTurn.reloads, hload, heof, hexp, Repl.reportSyntaxError, Repl.resetFlagHook,
      Repl.loadBuffer]
  | syntaxError err hload heof =>
    simp [LuaTurn.reloads, LuaTurn.results, hload, heof, Repl.reportSyntaxError,
      Repl.resetFlagHook, Repl.loadBuffer]

/-- What stands on the stack: the height at the start with all results, or the
results since the last text that was loaded twice. -/
theorem handleLuaCommand_top (top : Nat) (ins : List ReplInput) (s : Repl)
    (h : (handleLuaCommand top).run ins = some s) :
    (NoReload ins → s.top = top + resultsOf ins) ∧
      ∀ l i m, ins = l ++ i :: m → i.turn.reloads = true → NoReload m → s.top = resultsOf m := by
  induction ins, s, h using Machine.run_induction with
  | init => exact ⟨fun _ => rfl, fun l i m heq => absurd heq (by simp)⟩
  | step ins s₀ j s _ hs ih =>
    obtain ⟨hall, hlast⟩ := ih
    have htop := Repl.step_top hs
    constructor
    · intro hno
      obtain ⟨hno, hj⟩ := (noReload_concat ins j).mp hno
      rw [htop, hj, hall hno, resultsOf_concat, Nat.add_assoc]
      rfl
    · intro l i m heq hi hno
      rcases List.eq_nil_or_concat m with rfl | ⟨m, j', rfl⟩
      · obtain ⟨-, rfl⟩ := List.append_singleton_inj.mp heq
        rw [htop, if_pos hi]
        rfl
      · rw [List.concat_eq_append] at heq hno ⊢
        rw [← List.cons_append, ← List.append_assoc] at heq
        obtain ⟨hins, rfl⟩ := List.append_singleton_inj.mp heq
        obtain ⟨hno, hj⟩ := (noReload_concat m j).mp hno
        rw [htop, hj, hlast l i m hins hi hno, resultsOf_concat]
        rfl

/-- Either no text was loaded twice, or there is a last one that was. -/
theorem noReload_or_last (ins : List ReplInput) :
    NoReload ins ∨ ∃ l i m, ins = l ++ i :: m ∧ i.turn.reloads = true ∧ NoReload m := by
  induction ins using List.reverseRecOn with
  | nil => exact Or.inl fun i hi => absurd hi List.not_mem_nil
  | append_singleton ins j ih =>
    cases hj : j.turn.reloads with
    | true => exact Or.inr ⟨ins, j, [], rfl, hj, fun i hi => absurd hi List.not_mem_nil⟩
    | false =>
      rcases ih with hno | ⟨l, i, m, rfl, hi, hno⟩
      · exact Or.inl ((noReload_concat ins j).mpr ⟨hno, hj⟩)
      · refine Or.inr ⟨l, i, m ++ [j], ?_, hi, (noReload_concat m j).mpr ⟨hno, hj⟩⟩
        rw [List.append_assoc, List.cons_append]

/-- **The stack between two lines.**  It is never higher than when the loop was
entered exactly in the runs whose chunks return no values before the first
second load, and no more than it had then between two of them. -/
theorem stack_height_iff (top : Nat) (ins : List ReplInput) (s : Repl)
    (h : (handleLuaCommand top).run ins = some s) :
    (handleLuaCommand top).Always (fun s => s.top ≤ top) ins ↔ Balanced top ins := by
  have hdef : ∀ l, l <+: ins → ∃ s, (handleLuaCommand top).run l = some s :=
    fun l hl => (handleLuaCommand top).prefix_defined hl h
  constructor
  · intro hle
    constructor
    · intro l hl hno
      obtain ⟨s, hs⟩ := hdef l hl
      have htop := (handleLuaCommand_top top l s hs).1 hno
      have := hle l s hl hs
      omega
    · intro l i m hl hi hno
      obtain ⟨s, hs⟩ := hdef _ hl
      rw [← (handleLuaCommand_top top _ s hs).2 l i m rfl hi hno]
      exact hle _ s hl hs
  · intro hb l s hl hs
    obtain ⟨hall, hlast⟩ := handleLuaCommand_top top l s hs
    rcases noReload_or_last l with hno | ⟨l, i, m, rfl, hi, hno⟩
    · rw [hall hno, hb.before l hl hno]
      exact Nat.le_refl _
    · rw [hlast l i m rfl hi hno]
      exact hb.after l i m hl hi hno

/-- `return 1`, which loads and returns one value. -/
def returnOne : ReplInput :=
  ⟨⟨[114, 101, 116, 117, 114, 110, 32, 49], by decide, by decide⟩, .ok, .ok 1, .ok⟩

theorem stack_height_returnOne :
    ¬ ∀ top ins s, (handleLuaCommand top).run ins = some s →
      (handleLuaCommand top).Always (fun s => s.top ≤ top) ins := by
  intro h
  have hrun : ∃ s, (handleLuaCommand 0).run [returnOne] = some s ∧ s.top = 1 := ⟨_, rfl, rfl⟩
  obtain ⟨s, hs, htop⟩ := hrun
  have hle := h 0 [returnOne] s hs [returnOne] s List.prefix_rfl hs
  omega

/-- `x = 1`, which loads and returns nothing. -/
def assignment : ReplInput := ⟨⟨[120, 61, 49], by decide, by decide⟩, .ok, .ok 0, .ok⟩

theorem stack_height_assignments :
    (handleLuaCommand 0).Always (fun s => s.top ≤ 0) [assignment, assignment] := by
  have hrun : ∃ s, (handleLuaCommand 0).run [assignment, assignment] = some s := ⟨_, rfl⟩
  obtain ⟨s, hs⟩ := hrun
  have hzero : ∀ m : List ReplInput, (∀ i ∈ m, i = assignment) → resultsOf m = 0 := by
    intro m hm
    induction m with
    | nil => rfl
    | cons i m ih =>
      obtain rfl := hm i List.mem_cons_self
      rw [resultsOf, ih fun j hj => hm j (List.mem_cons_of_mem _ hj)]
      rfl
  have hmem : ∀ i ∈ [assignment, assignment], i = assignment := by simp
  refine (stack_height_iff 0 [assignment, assignment] s hs).mpr ⟨fun l hl _ => ?_, ?_⟩
  · exact hzero l fun i hi => hmem i (hl.subset hi)
  · intro l i m hl _ _
    rw [hzero m fun j hj => hmem j (hl.subset (by simp [hj]))]

end CLIos
