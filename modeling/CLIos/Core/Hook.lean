import CLIos.Core.Repl

/-!
# The hook that interrupts a chunk

`_HandleLuaCommand` installs `interrupt_hook` once, before its loop, and clears
it at the end of a body that does not `continue` (main/Core_Level.c).  Nothing
installs it again.  `luaL_openlibs` opens `debug` too, so that Lua code of any
task can put a hook of its own in its place with `debug.sethook`.

`pcalls` records the hook that is installed at each `lua_pcall` of the loop.
-/

namespace CLIos

open Runs

inductive HookEvent where
  | call
  | ret
  | line
  | count
deriving DecidableEq

inductive HookFunction where
  | interruptHook
  /-- the C function of `debug.sethook`, which calls the Lua function given -/
  | hookf
deriving DecidableEq

/-- What `lua_sethook` stores. -/
structure Hook where
  func : HookFunction
  mask : List HookEvent
  count : Nat
deriving DecidableEq

/-- `interrupt_hook, LUA_MASKCOUNT | LUA_MASKCALL | LUA_MASKRET, 100` -/
def Hook.interrupt : Hook := ⟨.interruptHook, [.count, .call, .ret], 100⟩

/-- `interrupt_hook`: the message it raises. -/
def interruptHook (stopFlag : Bool) : Option String :=
  if stopFlag then some "Execution interrupted" else none

/-- What a hook event of the running chunk raises, if `interrupt_hook` sees it. -/
def raisedAt (hook : Option Hook) (e : HookEvent) (stopFlag : Bool) : Option String :=
  match hook with
  | some ⟨.interruptHook, mask, _⟩ => if e ∈ mask then interruptHook stopFlag else none
  | _ => none

/-- The exits that go through `lua_sethook(L, NULL, 0, 0)`. -/
def ReplExit.clearsHook : ReplExit → Bool
  | .ran | .syntaxError => true
  | .runtimeError | .incomplete | .retried => false

structure HookedRepl where
  repl : Repl
  /-- the hook on `L` -/
  hook : Option Hook
  pcalls : List (Option Hook)

inductive HookedInput where
  | line (i : ReplInput)
  /-- `debug.sethook` in Lua code, with a function or without -/
  | setHook (h : Option (List HookEvent × Nat))

namespace HookedRepl

def start (top : Nat) : HookedRepl := ⟨Repl.start top, some Hook.interrupt, []⟩

def step (s : HookedRepl) : HookedInput → Option HookedRepl
  | .line i => (s.repl.step i).map fun repl => {
      repl := repl
      hook := if i.turn.exit.clearsHook then none else s.hook
      pcalls :=
        match i.turn.load with
        | .ok => s.pcalls ++ [s.hook]
        | .error _ => s.pcalls }
  | .setHook h => some { s with
      repl := { s.repl with hook := false }
      hook := h.map fun h => ⟨.hookf, h.1, h.2⟩ }

end HookedRepl

def hookedRepl (top : Nat) : Machine HookedRepl HookedInput where
  init := HookedRepl.start top
  step := HookedRepl.step

/-- `interrupt_hook` is installed with its masks, and a true `stop_flag` raises
the message at the next event of each of them. -/
def Interrupts (hook : Option Hook) : Prop :=
  hook = some Hook.interrupt ∧
    ∀ e ∈ Hook.interrupt.mask, raisedAt hook e true = some "Execution interrupted"

def HookedRepl.Interruptible (s : HookedRepl) : Prop := ∀ h ∈ s.pcalls, Interrupts h

theorem interrupts_iff (hook : Option Hook) : Interrupts hook ↔ hook = some Hook.interrupt := by
  constructor
  · intro h
    exact h.1
  · rintro rfl
    exact ⟨rfl, fun e he => if_pos he⟩

/-! ## One line -/

/-- The flag of the loop's own model, told by the way the body ends. -/
theorem Repl.step_hook {s s' : Repl} {i : ReplInput} (h : s.step i = some s') :
    s'.hook = (s.hook && !i.turn.exit.clearsHook) := by
  obtain ⟨s₁, t, happ, hout, rfl⟩ := Repl.step_cases h
  have h₁ : s₁.hook = s.hook := by rw [Repl.appendLine_frame happ]
  show t.hook = _
  rw [← h₁]
  cases hout with
  | ran n hload hpcall =>
    simp [LuaTurn.exit, hload, hpcall, ReplExit.clearsHook, Repl.runChunk, Repl.resetFlagHook]
  | runtimeError hload hpcall =>
    simp [LuaTurn.exit, hload, hpcall, ReplExit.clearsHook, Repl.runChunk, Repl.loadBuffer]
  | incomplete err hload heof hexp =>
    simp [LuaTurn.exit, hload, heof, hexp, ReplExit.clearsHook, Repl.loadBuffer]
  | retried err s₂ hload heof hexp hpush hreload =>
    rw [Repl.pushNewline_frame hpush]
    simp [LuaTurn.exit, hload, heof, hexp, hreload, ReplExit.clearsHook, Repl.loadBuffer]
  | rejected err err₂ s₂ hload heof hexp hpush hreload =>
    simp [LuaTurn.exit, hload, heof, hexp, hreload, ReplExit.clearsHook, Repl.reportSyntaxError,
      Repl.resetFlagHook]
  | syntaxError err hload heof =>
    simp [LuaTurn.exit, hload, heof, ReplExit.clearsHook, Repl.reportSyntaxError,
      Repl.resetFlagHook]

/-! ## Who still has the hook -/

/-- The inputs after which `interrupt_hook` is no longer installed. -/
def HookedInput.LosesHook : HookedInput → Prop
  | .line i => i.turn.exit.clearsHook = true
  | .setHook _ => True

instance (e : HookedInput) : Decidable e.LosesHook := by
  unfold HookedInput.LosesHook
  split <;> infer_instance

/-- No line whose text loads comes after an input that loses the hook. -/
def KeepsHook (es : List HookedInput) : Prop :=
  ∀ l i, l ++ [.line i] <+: es → i.turn.load = .ok → ∀ e ∈ l, ¬ e.LosesHook

namespace HookedRepl

variable {top : Nat}

theorem step_hook_iff {s s' : HookedRepl} {e : HookedInput} (h : s.step e = some s') :
    s'.hook = some Hook.interrupt ↔ s.hook = some Hook.interrupt ∧ ¬ e.LosesHook := by
  cases e with
  | line i =>
    obtain ⟨r, -, rfl⟩ := Option.map_eq_some_iff.mp h
    by_cases hc : i.turn.exit.clearsHook = true <;> simp [HookedInput.LosesHook, hc]
  | setHook hk =>
    cases h
    cases hk <;> simp [HookedInput.LosesHook, Hook.interrupt]

/-- `interrupt_hook` is installed until the first input that loses it. -/
theorem run_hook_iff (es : List HookedInput) (s : HookedRepl)
    (h : (hookedRepl top).run es = some s) :
    s.hook = some Hook.interrupt ↔ ∀ e ∈ es, ¬ e.LosesHook := by
  induction es, s, h using Machine.run_induction with
  | init =>
    show (start top).hook = some Hook.interrupt ↔ _
    simp [start]
  | step es s₀ e s _ hs ih =>
    rw [step_hook_iff hs, ih]
    simp [or_imp, forall_and]

/-- The hook recorded here is the one of the loop's own model. -/
theorem run_repl_hook (es : List HookedInput) (s : HookedRepl)
    (h : (hookedRepl top).run es = some s) :
    s.repl.hook = true ↔ s.hook = some Hook.interrupt := by
  induction es, s, h using Machine.run_induction with
  | init => exact iff_of_true rfl rfl
  | step es s₀ e s _ hs ih =>
    rw [step_hook_iff hs, ← ih]
    cases e with
    | line i =>
      obtain ⟨r, hr, rfl⟩ := Option.map_eq_some_iff.mp hs
      rw [Repl.step_hook hr]
      simp [HookedInput.LosesHook]
    | setHook hk =>
      cases hs
      simp [HookedInput.LosesHook]

theorem step_pcalls {s s' : HookedRepl} {e : HookedInput} (h : s.step e = some s') :
    s'.Interruptible ↔ s.Interruptible ∧
      ∀ i, e = .line i → i.turn.load = .ok → s.hook = some Hook.interrupt := by
  cases e with
  | line i =>
    obtain ⟨r, -, rfl⟩ := Option.map_eq_some_iff.mp h
    cases hl : i.turn.load with
    | ok => simp [Interruptible, hl, or_imp, forall_and, interrupts_iff]
    | error err => simp [Interruptible, hl]
  | setHook hk =>
    cases h
    simp [Interruptible]

end HookedRepl

theorem keepsHook_concat (es : List HookedInput) (e : HookedInput) :
    KeepsHook (es ++ [e]) ↔ KeepsHook es ∧
      ∀ i, e = .line i → i.turn.load = .ok → ∀ e' ∈ es, ¬ e'.LosesHook := by
  constructor
  · intro h
    refine ⟨fun l i hl => h l i (hl.trans (List.prefix_append es [e])), ?_⟩
    rintro i rfl
    exact h es i List.prefix_rfl
  · rintro ⟨h, hlast⟩ l i hl
    rcases concat_prefix_concat.mp hl with ⟨rfl, hi⟩ | hl
    · exact hlast i hi.symm
    · exact h l i hl

/-- **Interruption.**  Every chunk runs under `interrupt_hook` in exactly the
runs in which no chunk follows a chunk that ran, a syntax error or a hook set by
Lua code. -/
theorem interruptible_iff (top : Nat) (es : List HookedInput) (s : HookedRepl)
    (h : (hookedRepl top).run es = some s) : s.Interruptible ↔ KeepsHook es := by
  induction es, s, h using Machine.run_induction with
  | init =>
    show (HookedRepl.start top).Interruptible ↔ _
    refine iff_of_true (by simp [HookedRepl.Interruptible, HookedRepl.start]) fun l i hl => ?_
    exact absurd hl (not_concat_prefix_nil l _)
  | step es s₀ e s h₀ hs ih =>
    rw [HookedRepl.step_pcalls hs, keepsHook_concat, ih, HookedRepl.run_hook_iff es s₀ h₀]

/-- One line, `x`, that loads and runs. -/
def oneChunk : HookedInput :=
  .line ⟨⟨[120], by decide, by decide⟩, .ok, .ok 0, .ok⟩

theorem interruptible_first : ∃ s, (hookedRepl 0).run [oneChunk] = some s ∧ s.Interruptible := by
  have hrun : ∃ s, (hookedRepl 0).run [oneChunk] = some s := ⟨_, rfl⟩
  obtain ⟨s, hs⟩ := hrun
  refine ⟨s, hs, (interruptible_iff 0 [oneChunk] s hs).mpr ?_⟩
  intro l i hl _ e he
  have hlen := hl.length_le
  have hpos := List.length_pos_of_mem he
  rw [List.length_append, List.length_singleton, List.length_singleton] at hlen
  omega

/-- The second of two chunks runs without the hook. -/
theorem second_chunk_unhooked :
    ¬ ∀ es s, (hookedRepl 0).run es = some s → s.Interruptible := by
  intro h
  have hrun : ∃ s, (hookedRepl 0).run [oneChunk, oneChunk] = some s ∧ none ∈ s.pcalls :=
    ⟨_, rfl, by decide⟩
  obtain ⟨s, hs, hmem⟩ := hrun
  cases (h _ s hs none hmem).1

end CLIos
