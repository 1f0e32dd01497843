import CLIos.Core.Console
import CLIos.Lib.Fair

/-!
# Every line typed is handled

`Console.Delivered` says what has gone through when the console is quiet.  Here
the console runs for ever, its three tasks are given the processor fairly, and a
read returns when it likes: each line typed is handled at some moment.

While the lines typed up to a moment are not all handled some task has work to
do: `app_main` as long as it has not created both tasks, then the Lua task unless
it waits for a notification that was not given, and then the shell.  `work` counts
the steps left for these lines.
-/

namespace CLIos

open CMem Runs Text

inductive ConsoleTask where
  | appMain
  | shellTask
  | handleLuaCommand
deriving DecidableEq

/-- The task that takes the step; nobody's is the return of a read. -/
def ConsoleEvent.task : ConsoleEvent → Option ConsoleTask
  | .createTask => some .appMain
  | .uartRead _ => none
  | .round | .storeIndex | .notifyGive => some .shellTask
  | .setHook | .notifyTake | .loadIndex | .handleLine _ | .finishChunk => some .handleLuaCommand

/-- It is the task's turn; the shell waits for the consumer besides. -/
def Console.HasTurn (s : Console) (t : ConsoleTask) : Prop :=
  ∃ e : ConsoleEvent, e.task = some t ∧ s.Enabled e ∧ (t = .shellTask → s.Ready e)

/-! ## What is there when -/

namespace Handoff

/-- The tasks are there as far as `app_main` has come, and no line goes out
before the Lua task is there. -/
structure Born (s : Handoff) : Prop where
  shell : s.shell = .absent ↔ s.main = .createShell
  lua : s.lua = .absent ↔ s.main ≠ .returned
  handle : s.handleSet = true ↔ s.main = .returned
  published : s.main ≠ .returned → s.published = []

theorem born_start : Born start := by
  constructor <;> simp [start]

theorem Born.step {s t : Handoff} {e : HandoffEvent} (h : s.Born) (hr : s.Ready e)
    (hs : s.step e = some t) : t.Born := by
  obtain ⟨hshell, hlua, hhandle, hpub⟩ := h
  cases e with
  | createTask =>
    simp only [Handoff.step] at hs
    split at hs
    · next hm =>
      cases hs
      rw [hm] at hlua hhandle hpub
      exact ⟨by simp, by simpa using hlua, by simpa using hhandle, by simpa using hpub⟩
    · next hm =>
      cases hs
      rw [hm] at hshell
      exact ⟨by simpa using hshell, by simp, by simp, by simp⟩
    · cases hs
  | writeRow line | storeIndex =>
    simp only [Handoff.step] at hs
    split at hs
    · next hsh =>
      cases hs
      rw [hsh] at hshell
      exact ⟨by simpa using hshell, hlua, hhandle, hpub⟩
    · cases hs
  | notifyGive =>
    have hset : s.handleSet = true := hr
    simp only [Handoff.step, if_pos hset] at hs
    split at hs
    · next hsh =>
      cases hs
      rw [hsh] at hshell
      exact ⟨by simpa using hshell, hlua, hhandle, fun hm => absurd (hhandle.mp hset) hm⟩
    · cases hs
  | setHook | loadIndex | finishChunk =>
    simp only [Handoff.step] at hs
    split at hs
    · next hl =>
      cases hs
      rw [hl] at hlua
      exact ⟨hshell, by simpa using hlua, hhandle, hpub⟩
    · cases hs
  | notifyTake =>
    simp only [Handoff.step] at hs
    split at hs
    · next hl =>
      cases hs
      rw [hl.1] at hlua
      exact ⟨hshell, by simpa using hlua, hhandle, hpub⟩
    · cases hs
  | copyRow =>
    simp only [Handoff.step] at hs
    split at hs
    · next hl =>
      cases hs
      rw [hl] at hlua
      exact ⟨hshell, by simpa using hlua, hhandle, hpub⟩
    · cases hs

end Handoff

/-! ## The work left for the first lines -/

def MainPc.work : MainPc → Nat
  | .createShell => 2
  | .createLua => 1
  | .returned => 0

def ShellPc.work : ShellPc → Nat
  | .wrote _ => 2
  | .switched _ => 1
  | .absent | .reading => 0

/-- From `running` the next line is four steps away. -/
def LuaPc.work : LuaPc → Nat
  | .absent => 5
  | .installHook | .running => 4
  | .waiting => 3
  | .taken => 2
  | .loaded _ => 1

namespace Console

/-- The steps of the shell until `k` lines are published. -/
def shellWork (k : Nat) (s : Console) : Nat :=
  if k ≤ s.handoff.published.length then 0
  else 3 * (s.read.data.length - s.round) + s.handoff.shell.work

/-- The steps of the tasks until `k` lines are handled. -/
def work (k : Nat) (s : Console) : Nat :=
  s.handoff.main.work + (5 * (k - s.handled.length) + s.handoff.lua.work) + s.shellWork k

/-- The task on which the next line waits. -/
def helper (s : Console) : ConsoleTask :=
  if s.handoff.main ≠ .returned then .appMain
  else if s.handoff.lua = .waiting ∧ s.handoff.notifications = 0 then .shellTask
  else .handleLuaCommand

/-- What holds while the first `k` of the lines typed are on their way. -/
structure Typed (k : Nat) (s : Console) : Prop where
  inv : s.Inv
  born : s.handoff.Born
  typed : k ≤ (typedLines s.stream).length

/-- The bytes received are those of before, and more. -/
theorem step_stream {s s' : Console} {e : ConsoleEvent} (hs : s.step e = some s') :
    s.stream <+: s'.stream := by
  cases e with
  | uartRead r =>
    simp only [Console.step] at hs
    split at hs
    · obtain ⟨input, -, rfl⟩ := Option.map_eq_some_iff.mp hs
      show s.stream <+: received ((s.before ++ [s.read]) ++ [r])
      rw [received_concat]
      exact List.prefix_append _ _
    · cases hs
  | round =>
    simp only [Console.step] at hs
    split at hs
    · obtain ⟨shell, -, hs⟩ := Option.bind_eq_some_iff.mp hs
      split at hs
      · cases hs
        exact List.prefix_rfl
      · obtain ⟨t, -, rfl⟩ := Option.map_eq_some_iff.mp hs
        exact List.prefix_rfl
    · cases hs
  | handleLine turn =>
    obtain ⟨line, -, hs⟩ := Option.bind_eq_some_iff.mp hs
    obtain ⟨repl, -, hs⟩ := Option.bind_eq_some_iff.mp hs
    obtain ⟨t, -, rfl⟩ := Option.map_eq_some_iff.mp hs
    exact List.prefix_rfl
  | createTask | storeIndex | notifyGive | setHook | notifyTake | loadIndex | finishChunk =>
    obtain ⟨t, -, rfl⟩ := Option.map_eq_some_iff.mp hs
    exact List.prefix_rfl

theorem move_handoff {s s' : Console} {e : HandoffEvent} (hs : s.move e = some s') :
    s.handoff.step e = some s'.handoff := by
  obtain ⟨t, ht, rfl⟩ := Option.map_eq_some_iff.mp hs
  exact ht

/-- The step of the tasks' places in a step of the console, if there is one. -/
theorem step_handoff {s s' : Console} {e : ConsoleEvent} (hr : s.Ready e)
    (hs : s.step e = some s') :
    s'.handoff = s.handoff ∨
      ∃ e', s.handoff.Ready e' ∧ s.handoff.step e' = some s'.handoff := by
  cases e with
  | uartRead r =>
    simp only [Console.step] at hs
    split at hs
    · obtain ⟨input, -, rfl⟩ := Option.map_eq_some_iff.mp hs
      exact Or.inl rfl
    · cases hs
  | round =>
    simp only [Console.step] at hs
    split at hs
    · obtain ⟨shell, hbyte, hs⟩ := Option.bind_eq_some_iff.mp hs
      split at hs
      · cases hs
        exact Or.inl rfl
      · next line hline =>
        have hends : s.endsLine = true := by
          simp only [endsLine, hbyte, hline, Option.isSome_some]
        exact Or.inr ⟨.writeRow line, hr hends, (move_handoff hs :)⟩
    · cases hs
  | handleLine turn =>
    obtain ⟨line, -, hs⟩ := Option.bind_eq_some_iff.mp hs
    obtain ⟨repl, -, hs⟩ := Option.bind_eq_some_iff.mp hs
    exact Or.inr ⟨.copyRow, trivial, (move_handoff hs :)⟩
  | createTask => exact Or.inr ⟨.createTask, trivial, move_handoff hs⟩
  | storeIndex => exact Or.inr ⟨.storeIndex, hr, move_handoff hs⟩
  | notifyGive => exact Or.inr ⟨.notifyGive, hr, move_handoff hs⟩
  | setHook => exact Or.inr ⟨.setHook, trivial, move_handoff hs⟩
  | notifyTake => exact Or.inr ⟨.notifyTake, trivial, move_handoff hs⟩
  | loadIndex => exact Or.inr ⟨.loadIndex, trivial, move_handoff hs⟩
  | finishChunk => exact Or.inr ⟨.finishChunk, trivial, move_handoff hs⟩

theorem Typed.step {k : Nat} {s s' : Console} {e : ConsoleEvent} (h : s.Typed k)
    (hr : s.Ready e) (hs : s.step e = some s') : s'.Typed k where
  inv := h.inv.step hr hs
  born := by
    rcases step_handoff hr hs with heq | ⟨e', hr', hs'⟩
    · exact heq ▸ h.born
    · exact h.born.step hr' hs'
  typed := by
    obtain ⟨w, hw⟩ := step_stream hs
    exact h.typed.trans (hw ▸ (typedLines_mono s.stream w).length_le)

/-- Where the Lua task waits with nothing notified, what is published is handled. -/
theorem Inv.handled_length {s : Console} (h : s.Inv) (hw : s.handoff.lua = .waiting)
    (h0 : s.handoff.notifications = 0) : s.handled.length = s.handoff.published.length := by
  rw [← h.handoff.delivered.1 hw h0, ← h.lines, handledLines, List.length_map]

/-- Where all bytes are looked at, what is typed is published. -/
theorem Inv.published_length {s : Console} (h : s.Inv) (hr : s.handoff.shell = .reading)
    (hround : s.round = s.read.data.length) :
    s.handoff.published.length = (typedLines s.stream).length := by
  rw [← (h.inSync hround).published, h.published, Handoff.inShell, hr, List.append_nil]

/-- The next line waits for the shell only while it is not published. -/
theorem Typed.helper_ne_shell {k : Nat} {s : Console} (h : s.Typed k)
    (hgoal : ¬ k ≤ s.handled.length) (hpub : k ≤ s.handoff.published.length) :
    s.helper ≠ .shellTask := by
  intro hhelper
  unfold helper at hhelper
  split at hhelper
  · cases hhelper
  · split at hhelper
    · next hw =>
      have heq := h.inv.handled_length hw.1 hw.2
      omega
    · cases hhelper

/-! ## The helper has its turn -/

theorem Typed.helper_hasTurn {k : Nat} {s : Console} (h : s.Typed k)
    (hgoal : ¬ k ≤ s.handled.length) : s.HasTurn s.helper := by
  unfold helper
  split
  · next hm => exact ⟨.createTask, rfl, hm, fun ht => nomatch ht⟩
  · next hm =>
    have hreturned : s.handoff.main = .returned := not_not.mp hm
    split
    · next hw =>
      obtain ⟨hwait, h0⟩ := hw
      have hheq := h.inv.handled_length hwait h0
      cases hsh : s.handoff.shell with
      | absent =>
        have hcreate := h.born.shell.mp hsh
        rw [hreturned] at hcreate
        cases hcreate
      | reading =>
        have hle := h.inv.rounds
        by_cases hround : s.round = s.read.data.length
        · have hpub := h.inv.published_length hsh hround
          have htyped := h.typed
          omega
        · refine ⟨.round, rfl, ⟨hsh, by omega⟩, fun _ _ => ?_⟩
          rw [hwait]
          exact LuaPc.noConfusion
      | wrote line =>
        refine ⟨.storeIndex, rfl, ⟨line, hsh⟩, fun _ => ⟨h0, ?_⟩⟩
        rw [hwait]
        exact LuaPc.noConfusion
      | switched line =>
        exact ⟨.notifyGive, rfl, ⟨line, hsh⟩, fun _ => h.born.handle.mpr hreturned⟩
    · next hw =>
      cases hl : s.handoff.lua with
      | absent => exact absurd hreturned (h.born.lua.mp hl)
      | installHook => exact ⟨.setHook, rfl, hl, fun ht => nomatch ht⟩
      | waiting =>
        have hpos : 0 < s.handoff.notifications := by
          by_contra h0
          exact hw ⟨hl, by omega⟩
        exact ⟨.notifyTake, rfl, ⟨hl, hpos⟩, fun ht => nomatch ht⟩
      | taken => exact ⟨.loadIndex, rfl, hl, fun ht => nomatch ht⟩
      | loaded idx =>
        exact ⟨.handleLine ⟨.ok, .ok 0, .error none⟩, rfl, ⟨idx, hl⟩, fun ht => nomatch ht⟩
      | running => exact ⟨.finishChunk, rfl, hl, fun ht => nomatch ht⟩

/-! ## The other steps do not hinder it -/

/-- The step is one off the work, or leaves the helper and its work alone. -/
def Lowers (k : Nat) (s s' : Console) (e : ConsoleEvent) : Prop :=
  s'.work k < s.work k ∨
    s'.work k = s.work k ∧ s'.helper = s.helper ∧ e.task ≠ some s.helper

/-- A step of the shell is one off its work while there is some; it moves neither
of the other tasks, and takes no notification. -/
theorem Typed.lowers_shell {k : Nat} {s s' : Console} {e : ConsoleEvent} (h : s.Typed k)
    (hgoal : ¬ k ≤ s.handled.length) (htask : e.task = some .shellTask)
    (hmain : s'.handoff.main = s.handoff.main) (hlua : s'.handoff.lua = s.handoff.lua)
    (hnote : s.handoff.notifications ≤ s'.handoff.notifications)
    (hhandled : s'.handled = s.handled)
    (hpub : s.handoff.published.length ≤ s'.handoff.published.length)
    (hwork : 3 * (s'.read.data.length - s'.round) + s'.handoff.shell.work <
      3 * (s.read.data.length - s.round) + s.handoff.shell.work) : Lowers k s s' e := by
  by_cases hk : k ≤ s.handoff.published.length
  · have hne := h.helper_ne_shell hgoal hk
    refine Or.inr ⟨?_, ?_, fun hs => hne (Option.some.inj (htask.symm.trans hs)).symm⟩
    · simp only [work, shellWork, hmain, hlua, hhandled, if_pos hk, if_pos (hk.trans hpub)]
    · unfold helper at hne ⊢
      rw [hmain, hlua]
      split
      · rfl
      · next hm =>
        rw [if_neg hm] at hne
        split at hne
        · exact absurd rfl hne
        · next hw =>
          rw [if_neg hw, if_neg]
          rintro ⟨hwait, h0⟩
          exact hw ⟨hwait, by omega⟩
  · left
    simp only [work, shellWork, hmain, hlua, hhandled, if_neg hk]
    split <;> omega

/-- A step of the Lua task is one off its work. -/
theorem lowers_lua {k : Nat} {s s' : Console} {e : ConsoleEvent}
    (hmain : s'.handoff.main = s.handoff.main) (hshell : s'.shellWork k = s.shellWork k)
    (hwork : 5 * (k - s'.handled.length) + s'.handoff.lua.work <
      5 * (k - s.handled.length) + s.handoff.lua.work) : Lowers k s s' e := by
  left
  simp only [work, hmain, hshell]
  omega

theorem Typed.lowers {k : Nat} {s s' : Console} {e : ConsoleEvent} (h : s.Typed k)
    (hgoal : ¬ k ≤ s.handled.length) (hr : s.Ready e) (hs : s.step e = some s') :
    Lowers k s s' e := by
  cases e with
  | uartRead r =>
    simp only [Console.step] at hs
    split at hs
    · next hturn =>
      obtain ⟨input, -, rfl⟩ := Option.map_eq_some_iff.mp hs
      -- all that was typed is published
      have hpub : k ≤ s.handoff.published.length :=
        h.inv.published_length hturn.1 hturn.2 ▸ h.typed
      refine Or.inr ⟨?_, rfl, (Option.some_ne_none s.helper).symm⟩
      simp only [work, shellWork, if_pos hpub]
    · cases hs
  | round =>
    simp only [Console.step] at hs
    split at hs
    · next hturn =>
      obtain ⟨shell, -, hs⟩ := Option.bind_eq_some_iff.mp hs
      have hlt := hturn.2
      split at hs
      · cases hs
        refine h.lowers_shell hgoal rfl rfl rfl (Nat.le_refl _) rfl (Nat.le_refl _) ?_
        simp only [hturn.1]
        omega
      · obtain ⟨t, ht, rfl⟩ := Option.map_eq_some_iff.mp hs
        simp only [Handoff.step, hturn.1] at ht
        obtain rfl := Option.some.inj ht
        refine h.lowers_shell hgoal rfl rfl rfl (Nat.le_refl _) rfl (Nat.le_refl _) ?_
        simp only [hturn.1, ShellPc.work]
        omega
    · cases hs
  | storeIndex =>
    obtain ⟨t, ht, rfl⟩ := Option.map_eq_some_iff.mp hs
    simp only [Handoff.step] at ht
    split at ht
    · next line hw =>
      cases ht
      refine h.lowers_shell hgoal rfl rfl rfl (Nat.le_refl _) rfl (Nat.le_refl _) ?_
      simp only [hw, ShellPc.work]
      omega
    · cases ht
  | notifyGive =>
    obtain ⟨t, ht, rfl⟩ := Option.map_eq_some_iff.mp hs
    have hset : s.handoff.handleSet = true := hr
    simp only [Handoff.step, if_pos hset] at ht
    split at ht
    · next line hw =>
      cases ht
      refine h.lowers_shell hgoal rfl rfl rfl (Nat.le_succ _) rfl ?_ ?_
      · rw [List.length_append]
        exact Nat.le_add_right _ _
      · simp only [hw, ShellPc.work]
        omega
    · cases ht
  | createTask =>
    obtain ⟨t, ht, rfl⟩ := Option.map_eq_some_iff.mp hs
    left
    cases hm : s.handoff.main with
    | createShell =>
      have habsent := h.born.shell.mpr hm
      simp only [Handoff.step, hm] at ht
      obtain rfl := Option.some.inj ht
      simp only [work, shellWork, hm, habsent, MainPc.work, ShellPc.work]
      omega
    | createLua =>
      have habsent : s.handoff.lua = .absent :=
        h.born.lua.mpr (by rw [hm]; exact MainPc.noConfusion)
      simp only [Handoff.step, hm] at ht
      obtain rfl := Option.some.inj ht
      simp only [work, shellWork, hm, habsent, MainPc.work, LuaPc.work]
      omega
    | returned =>
      simp only [Handoff.step, hm] at ht
      cases ht
  | handleLine turn =>
    obtain ⟨line, -, hs⟩ := Option.bind_eq_some_iff.mp hs
    obtain ⟨repl, -, hs⟩ := Option.bind_eq_some_iff.mp hs
    obtain ⟨t, ht, rfl⟩ := Option.map_eq_some_iff.mp hs
    simp only [Handoff.step] at ht
    split at ht
    · next idx hl =>
      cases ht
      refine lowers_lua rfl rfl ?_
      simp only [hl, LuaPc.work, List.length_append, List.length_singleton]
      omega
    · cases ht
  | setHook | notifyTake | loadIndex | finishChunk =>
    obtain ⟨t, ht, rfl⟩ := Option.map_eq_some_iff.mp hs
    simp only [Handoff.step] at ht
    split at ht
    · next hl =>
      cases ht
      refine lowers_lua rfl rfl ?_
      simp only [hl, LuaPc.work]
      omega
    · cases ht

/-- The first `k` lines typed are handled: by ranking with the work left for them. -/
def ranking (stack : CArray UInt8 CHAR_BUFFER_SIZE) (top k : Nat) :
    Ranking (console stack top) Console.Ready ConsoleEvent.task Console.HasTurn (Typed k)
      (fun s => k ≤ s.handled.length) Nat where
  rank := work k
  helper := helper
  keeps := fun _ _ _ h _ hr hs => Or.inr (h.step hr hs)
  helps := fun _ h hgoal => h.helper_hasTurn hgoal
  lowers := fun _ _ _ h hgoal hr hs => Or.inr (h.lowers hgoal hr hs)

end Console

/-- The lines typed up to a moment are handled at a later one. -/
theorem Console.handles_typed {stack : CArray UInt8 CHAR_BUFFER_SIZE} {top : Nat}
    {E : Execution (console stack top)} (hready : E.Along Console.Ready)
    (hfair : E.Fair ConsoleEvent.task Console.HasTurn) (n : Nat) :
    ∃ m, n ≤ m ∧ typedLines (E.state n).stream <+: (E.state m).handledLines ∧
      (E.state m).Inv := by
  have hstart : (E.state 0).Typed 0 := by
    rw [E.start]
    exact ⟨Console.inv_start stack top, Handoff.born_start, Nat.zero_le _⟩
  have hn : (E.state n).Typed 0 :=
    Execution.always_from hready (fun _ _ _ h hr hs => h.step hr hs) hstart n (Nat.zero_le n)
  let k := (typedLines (E.state n).stream).length
  have hk : (E.state n).Typed k := ⟨hn.inv, hn.born, Nat.le_refl k⟩
  obtain ⟨m, hm, hgoal⟩ := (Console.ranking stack top k).reaches hready hfair hk
  have hmk : (E.state m).Typed k :=
    Execution.always_from hready (fun _ _ _ h hr hs => h.step hr hs) hk m hm
  have hstream : (E.state n).stream <+: (E.state m).stream :=
    Execution.always_from (I := fun s => (E.state n).stream <+: s.stream) hready
      (fun _ _ _ h _ hs => h.trans (Console.step_stream hs)) List.prefix_rfl m hm
  obtain ⟨w, hw⟩ := hstream
  have hlines := hmk.inv.delivered.lines
  rw [← hw] at hlines
  refine ⟨m, hm, ?_, hmk.inv⟩
  refine List.prefix_of_prefix_length_le (typedLines_mono _ w) hlines ?_
  rw [Console.handledLines, List.length_map]
  exact hgoal

/-- **No line waits for ever.**  The console runs for ever, every step is ready (no
read tears a line, the shell waits for the consumer, and the statements fit), and
each task that keeps its turn moves: every line typed is handled, in its order and
once, and the loader is given it. -/
theorem console_handles_typed (stack : CArray UInt8 CHAR_BUFFER_SIZE) (top : Nat)
    (E : Execution (console stack top)) (hready : E.Along Console.Ready)
    (hfair : E.Fair ConsoleEvent.task Console.HasTurn) (n : Nat) :
    ∃ m, n ≤ m ∧ typedLines (E.state n).stream <+: (E.state m).handledLines ∧
      (E.state m).Delivered := by
  obtain ⟨m, hm, hlines, hinv⟩ := Console.handles_typed hready hfair n
  exact ⟨m, hm, hlines, hinv.delivered⟩

/-- Nobody has its turn in a quiet console. -/
theorem Console.Quiet.no_turn {s : Console} (h : s.Quiet) (hmain : s.handoff.main = .returned)
    (t : ConsoleTask) : ¬ s.HasTurn t := by
  obtain ⟨hshell, hround, hlua, h0⟩ := h
  rintro ⟨e, htask, he, -⟩
  cases e with
  | createTask => exact he hmain
  | uartRead r => cases htask
  | round =>
    have hlt : s.round < s.read.data.length := he.2
    omega
  | storeIndex | notifyGive =>
    obtain ⟨line, hw⟩ := he
    cases hshell.symm.trans hw
  | setHook | loadIndex | finishChunk => cases hlua.symm.trans he
  | notifyTake =>
    have hpos : 0 < s.handoff.notifications := he.2
    omega
  | handleLine turn =>
    obtain ⟨idx, hl⟩ := he
    cases hlua.symm.trans hl

instance (s : Console) : Decidable s.Quiet := by
  unfold Console.Quiet
  infer_instance

/-- A run that ends in a quiet console, and nothing typed from then on. -/
theorem Console.execution_of_quiet {stack : CArray UInt8 CHAR_BUFFER_SIZE} {top : Nat}
    {es : List ConsoleEvent} (h : ((console stack top).run es).any (fun s =>
      decide (s.Quiet ∧ s.handoff.main = .returned)) = true) :
    ∃ E : Execution (console stack top), (∀ n, E.label n = es[n]?) ∧
      E.Fair ConsoleEvent.task Console.HasTurn ∧
      ∀ Q, (console stack top).Along Q es → E.Along Q := by
  obtain ⟨s, hs, hquiet⟩ := (Option.any_eq_true _ _).mp h
  obtain ⟨hquiet, hmain⟩ := of_decide_eq_true hquiet
  exact ⟨Execution.ofRun es s hs, fun _ => rfl, Execution.ofRun_fair hs (hquiet.no_turn hmain),
    fun _ hQ => Execution.ofRun_along hs hQ⟩

/-- The run `consoleTwoLines`, and nothing typed from then on. -/
theorem console_handles_typed_two :
    ∃ E : Execution (console (CArray.fill CHAR_BUFFER_SIZE 0) 0),
      (∀ n, E.label n = consoleTwoLines[n]?) ∧ ∀ n, ∃ m, n ≤ m ∧
        typedLines (E.state n).stream <+: (E.state m).handledLines ∧ (E.state m).Delivered := by
  have hquiet : ((console (CArray.fill CHAR_BUFFER_SIZE 0) 0).run consoleTwoLines).any (fun s =>
      decide (s.Quiet ∧ s.handoff.main = .returned)) = true := by decide +kernel
  obtain ⟨E, hlabel, hfair, halong⟩ := Console.execution_of_quiet hquiet
  have hready : E.Along Console.Ready := halong _ (Machine.along_of_check _ _ (by decide +kernel))
  exact ⟨E, hlabel, console_handles_typed _ 0 E hready hfair⟩

end CLIos
