import CLIos.Core.Console
import CLIos.Lib.Fair

/-!
# What the hand-off keeps at any pace

Each line is handed over once if the shell waits for the consumer
(`Handoff.Ready`).  Nothing makes it wait, and a line can be lost, handled twice
or after a later one; two things hold all the same.  When both tasks have come to
rest the line published last is the line handled last.  And a notification is
answered: the Lua task, if it moves as long as it can, handles the line it was
given for or a later one.

A row is written and copied as a whole here; Core/DoubleBuffer has the accesses.
The first result needs no more: a row can be overwritten while it is copied only
after another notification was given, so that the Lua task is not at rest with it.
The second asks that no row is (`Unlapped`), for this can happen in every round.
-/

namespace CLIos

open Runs

namespace Handoff

/-- What holds in every run: the shell's two rows, and that the newest line is
not behind both tasks. -/
structure Newest (s : Handoff) : Prop where
  unborn : s.Unborn
  absent : s.main ≠ .returned → s.lua = .absent
  handle : s.handleSet = true ↔ s.lua ≠ .absent
  wrote : ∀ line, s.shell = .wrote line → s.rows (!s.activeIndex) = line
  switched : ∀ line, s.shell = .switched line → s.rows s.activeIndex = line
  active : (∀ line, s.shell ≠ .switched line) →
    ∀ line, s.published.getLast? = some line → s.rows s.activeIndex = line
  loaded : ∀ idx, s.lua = .loaded idx →
    idx = s.activeIndex ∨ (∃ line, s.shell = .switched line) ∨ 0 < s.notifications
  empty : s.published = [] → s.notifications = 0 ∧ s.lua ≠ .taken ∧ ∀ idx, s.lua ≠ .loaded idx
  ahead : s.nullNotify = false →
    (∃ line, s.shell = .switched line) ∨ 0 < s.notifications ∨ s.lua = .taken ∨
      (∃ idx, s.lua = .loaded idx) ∨ s.appended.getLast? = s.published.getLast?

theorem newest_start : Newest start := by
  constructor <;> simp [start, Unborn]

theorem Newest.createTask {s t : Handoff} (h : s.Newest) (hs : s.step .createTask = some t) :
    t.Newest := by
  have hunborn := h.unborn.step hs
  simp only [Handoff.step] at hs
  split at hs
  · next hm =>
    cases hs
    have hl : s.lua = .absent := h.absent (by rw [hm]; exact MainPc.noConfusion)
    have hsh : s.shell = .absent := h.unborn hm
    refine ⟨hunborn, fun _ => hl, h.handle, by simp, by simp, ?_, ?_, h.empty, ?_⟩
    · exact fun _ => h.active (by simp [hsh])
    · simp [hl]
    · intro hnull
      have hahead := h.ahead hnull
      simp only [hsh, hl] at hahead ⊢
      simpa using hahead
  · next hm =>
    cases hs
    have hl : s.lua = .absent := h.absent (by rw [hm]; exact MainPc.noConfusion)
    refine ⟨hunborn, by simp, by simp, h.wrote, h.switched, h.active, by simp, ?_, ?_⟩
    · intro hp
      exact ⟨(h.empty hp).1, by simp, by simp⟩
    · intro hnull
      have hahead := h.ahead hnull
      simp only [hl] at hahead ⊢
      simpa using hahead
  · cases hs

theorem Newest.writeRow {s t : Handoff} {line : List UInt8} (h : s.Newest)
    (hs : s.step (.writeRow line) = some t) : t.Newest := by
  have hunborn := h.unborn.step hs
  simp only [Handoff.step] at hs
  split at hs
  · next hsh =>
    cases hs
    refine ⟨hunborn, h.absent, h.handle, ?_, by simp, ?_, ?_, h.empty, ?_⟩
    · intro l hl
      cases hl
      exact if_pos rfl
    · -- the active row is not the one written
      intro _ l hl
      have hne : s.activeIndex ≠ !s.activeIndex := by cases s.activeIndex <;> simp
      exact (if_neg hne).trans (h.active (by simp [hsh]) l hl)
    · intro idx hl
      have hloaded := h.loaded idx hl
      simp only [hsh] at hloaded
      simpa using hloaded
    · intro hnull
      have hahead := h.ahead hnull
      simp only [hsh] at hahead
      simpa using hahead
  · cases hs

theorem Newest.storeIndex {s t : Handoff} (h : s.Newest) (hs : s.step .storeIndex = some t) :
    t.Newest := by
  have hunborn := h.unborn.step hs
  simp only [Handoff.step] at hs
  split at hs
  · next line hw =>
    cases hs
    refine ⟨hunborn, h.absent, h.handle, by simp, ?_, ?_, ?_, h.empty, ?_⟩
    · intro l hl
      cases hl
      exact h.wrote line hw
    · exact fun hne => absurd rfl (hne line)
    · exact fun _ _ => Or.inr (Or.inl ⟨line, rfl⟩)
    · exact fun _ => Or.inl ⟨line, rfl⟩
  · cases hs

theorem Newest.notifyGive {s t : Handoff} (h : s.Newest) (hs : s.step .notifyGive = some t) :
    t.Newest := by
  have hunborn := h.unborn.step hs
  simp only [Handoff.step] at hs
  split at hs
  · next line hw =>
    have hrow := h.switched line hw
    split at hs
    · next hset =>
      cases hs
      refine ⟨hunborn, h.absent, h.handle, by simp, by simp, ?_, ?_, by simp, ?_⟩
      · intro _ l hl
        rw [List.getLast?_concat] at hl
        exact hrow.trans (Option.some.inj hl)
      · exact fun _ _ => Or.inr (Or.inr (Nat.succ_pos _))
      · exact fun _ => Or.inr (Or.inl (Nat.succ_pos _))
    · next hset =>
      cases hs
      have hl : s.lua = .absent := by
        by_contra hne
        exact hset (h.handle.mpr hne)
      refine ⟨hunborn, h.absent, h.handle, by simp, by simp, ?_, by simp [hl], by simp, by simp⟩
      intro _ l hl
      rw [List.getLast?_concat] at hl
      exact hrow.trans (Option.some.inj hl)
  · cases hs

/-- The Lua task at a place that is no longer its first one and not between the
take and the copy. -/
theorem Newest.consume {s : Handoff} (h : s.Newest) (lua : LuaPc) (appended : List (List UInt8))
    (hl : s.lua ≠ .absent) (hplace : lua = .waiting ∨ lua = .running)
    (hahead : s.nullNotify = false → (∃ line, s.shell = .switched line) ∨ 0 < s.notifications ∨
      appended.getLast? = s.published.getLast?) :
    Newest { s with lua := lua, appended := appended } where
  unborn := h.unborn
  absent := fun hm => absurd (h.absent hm) hl
  handle := by
    refine iff_of_true (h.handle.mpr hl) ?_
    rcases hplace with rfl | rfl <;> exact LuaPc.noConfusion
  wrote := h.wrote
  switched := h.switched
  active := h.active
  loaded := by
    rintro idx rfl
    rcases hplace with hp | hp <;> cases hp
  empty := by
    intro hp
    have h0 := (h.empty hp).1
    rcases hplace with rfl | rfl <;> exact ⟨h0, LuaPc.noConfusion, fun _ => LuaPc.noConfusion⟩
  ahead := by
    intro hnull
    rcases hahead hnull with hsh | h0 | heq
    · exact Or.inl hsh
    · exact Or.inr (Or.inl h0)
    · exact Or.inr (Or.inr (Or.inr (Or.inr heq)))

/-- From a place with no line in hand the consumer goes to wait. -/
theorem Newest.await {s : Handoff} (h : s.Newest)
    (hl : s.lua = .installHook ∨ s.lua = .running) : Newest { s with lua := .waiting } := by
  refine h.consume .waiting s.appended ?_ (Or.inl rfl) fun hnull => ?_
  · rcases hl with hl | hl <;> rw [hl] <;> exact LuaPc.noConfusion
  · have hahead := h.ahead hnull
    rcases hl with hl | hl <;> simpa [hl] using hahead

theorem Newest.notifyTake {s t : Handoff} (h : s.Newest) (hs : s.step .notifyTake = some t) :
    t.Newest := by
  simp only [Handoff.step] at hs
  split at hs
  · next hl =>
    cases hs
    have hlua : s.lua ≠ .absent := by
      rw [hl.1]
      exact LuaPc.noConfusion
    refine ⟨h.unborn, fun hm => absurd (h.absent hm) hlua, ?_, h.wrote, h.switched, h.active,
      by simp, ?_, fun _ => Or.inr (Or.inr (Or.inl rfl))⟩
    · exact iff_of_true (h.handle.mpr hlua) LuaPc.noConfusion
    · intro hp
      have h0 := (h.empty hp).1
      omega
  · cases hs

theorem Newest.loadIndex {s t : Handoff} (h : s.Newest) (hs : s.step .loadIndex = some t) :
    t.Newest := by
  simp only [Handoff.step] at hs
  split at hs
  · next hl =>
    cases hs
    have hlua : s.lua ≠ .absent := by
      rw [hl]
      exact LuaPc.noConfusion
    refine ⟨h.unborn, fun hm => absurd (h.absent hm) hlua, ?_, h.wrote, h.switched, h.active,
      ?_, ?_, fun _ => Or.inr (Or.inr (Or.inr (Or.inl ⟨s.activeIndex, rfl⟩)))⟩
    · exact iff_of_true (h.handle.mpr hlua) LuaPc.noConfusion
    · intro idx hidx
      cases hidx
      exact Or.inl rfl
    · exact fun hp => absurd hl (h.empty hp).2.1
  · cases hs

/-- The row copied is the newest line, or the consumer has another turn. -/
theorem Newest.copyRow {s t : Handoff} (h : s.Newest) (hs : s.step .copyRow = some t) :
    t.Newest := by
  simp only [Handoff.step] at hs
  split at hs
  · next idx hl =>
    cases hs
    refine h.consume .running (s.appended ++ [s.rows idx]) (by simp [hl]) (Or.inr rfl) fun _ => ?_
    rcases h.loaded idx hl with rfl | hsh | h0
    · by_cases hsh : ∃ line, s.shell = .switched line
      · exact Or.inl hsh
      · refine Or.inr (Or.inr ?_)
        cases hp : s.published.getLast? with
        | none => exact absurd hl ((h.empty (List.getLast?_eq_none_iff.mp hp)).2.2 _)
        | some line =>
          rw [List.getLast?_concat, h.active (fun l hl => hsh ⟨l, hl⟩) line hp]
    · exact Or.inl hsh
    · exact Or.inr (Or.inl h0)
  · cases hs

theorem Newest.step {s t : Handoff} {e : HandoffEvent} (h : s.Newest) (hs : s.step e = some t) :
    t.Newest := by
  cases e with
  | createTask => exact h.createTask hs
  | writeRow line => exact h.writeRow hs
  | storeIndex => exact h.storeIndex hs
  | notifyGive => exact h.notifyGive hs
  | notifyTake => exact h.notifyTake hs
  | loadIndex => exact h.loadIndex hs
  | copyRow => exact h.copyRow hs
  | setHook =>
    simp only [Handoff.step] at hs
    split at hs
    · next hl =>
      cases hs
      exact h.await (Or.inl hl)
    · cases hs
  | finishChunk =>
    simp only [Handoff.step] at hs
    split at hs
    · next hl =>
      cases hs
      exact h.await (Or.inr hl)
    · cases hs

/-- Both tasks wait: the shell has notified what it has published. -/
structure Resting (s : Handoff) : Prop where
  lua : s.lua = .waiting
  notifications : s.notifications = 0
  shell : ∀ line, s.shell ≠ .switched line

theorem Newest.resting {s : Handoff} (h : s.Newest) (hr : s.Resting)
    (hnull : s.nullNotify = false) : s.appended.getLast? = s.published.getLast? := by
  rcases h.ahead hnull with ⟨line, hsh⟩ | h0 | hl | ⟨idx, hl⟩ | heq
  · exact absurd hsh (hr.shell line)
  · have := hr.notifications
    omega
  · cases hr.lua.symm.trans hl
  · cases hr.lua.symm.trans hl
  · exact heq

end Handoff

/-- **The newest line is not lost.**  In every interleaving, whatever was lost
before: when both tasks are at rest the line handled last is the line published
last, if no notification went to a NULL handle. -/
theorem handoff_newest (es : List HandoffEvent) :
    handoff.Always (fun s => s.Resting → s.nullNotify = false →
      s.appended.getLast? = s.published.getLast?) es :=
  Machine.always_mono (fun _ h hr hnull => h.resting hr hnull)
    (Machine.always_of_step Handoff.newest_start (fun _ _ _ h hs => h.step hs) es)

inductive HandoffTask where
  | shellTask
  | handleLuaCommand
deriving DecidableEq

/-- The task that takes the step; nobody's are the steps of `app_main`, and the first
of a publication, for lines are typed when somebody likes. -/
def HandoffEvent.task : HandoffEvent → Option HandoffTask
  | .createTask | .writeRow _ => none
  | .storeIndex | .notifyGive => some .shellTask
  | .setHook | .notifyTake | .loadIndex | .copyRow | .finishChunk => some .handleLuaCommand

namespace Handoff

def HasTurn (s : Handoff) (t : HandoffTask) : Prop :=
  ∃ e : HandoffEvent, e.task = some t ∧ (s.step e).isSome = true

/-- No row is written between the load of its index and its copy. -/
def Unlapped (s : Handoff) : HandoffEvent → Prop
  | .writeRow _ => s.lua ≠ .loaded (!s.activeIndex)
  | _ => True

/-- The lines whose index was stored, the last of them perhaps not published yet. -/
def stored (s : Handoff) : List (List UInt8) :=
  s.published ++ match s.shell with
    | .switched line => [line]
    | _ => []

/-- Those after the first `k`. -/
def since (s : Handoff) (k : Nat) : List (List UInt8) := s.stored.drop k

/-- A line published after the first `k` was handled after the first `a` that were. -/
def Answered (k a : Nat) (s : Handoff) : Prop :=
  ∃ line ∈ s.appended.drop a, line ∈ s.published.drop k

/-- The line on its way to be published was handled already. -/
def due (a : Nat) (s : Handoff) : Bool :=
  match s.shell with
  | .switched line => decide (line ∈ s.appended.drop a)
  | _ => false

/-- What holds from a notification on until it is answered: the active row holds
a line that does, and the Lua task has still to take it or has it in hand, or the
line that it has handled is to be published by the shell. -/
structure Owed (k a : Nat) (s : Handoff) : Prop where
  newest : s.Newest
  lua : s.lua ≠ .absent
  published : k ≤ s.published.length
  appended : a ≤ s.appended.length
  active : s.rows s.activeIndex ∈ s.since k
  owed : 0 < s.notifications ∨ s.lua = .taken ∨
    (∃ idx, s.lua = .loaded idx ∧ s.rows idx ∈ s.since k) ∨ s.due a = true

/-- What the other tasks leave to the consumer, and what they may add. -/
structure Others (k : Nat) (s t : Handoff) : Prop where
  lua : t.lua = s.lua
  appended : t.appended = s.appended
  notifications : s.notifications ≤ t.notifications
  published : s.published.length ≤ t.published.length
  since : ∀ line, line ∈ s.since k → line ∈ t.since k
  loaded : ∀ idx, s.lua = .loaded idx → t.rows idx = s.rows idx
  active : s.rows s.activeIndex ∈ s.since k → t.rows t.activeIndex ∈ t.since k

theorem due_iff {a : Nat} {s : Handoff} :
    s.due a = true ↔ ∃ line, s.shell = .switched line ∧ line ∈ s.appended.drop a := by
  unfold due
  cases s.shell <;> simp

theorem since_mono {k : Nat} {s t : Handoff} (h : s.stored <+: t.stored) {line : List UInt8}
    (hl : line ∈ s.since k) : line ∈ t.since k :=
  (h.drop k).subset hl

/-- A line of these was published, or is the one on its way. -/
theorem mem_since_iff {k : Nat} {s : Handoff} (hk : k ≤ s.published.length) {line : List UInt8} :
    line ∈ s.since k ↔ line ∈ s.published.drop k ∨ s.shell = .switched line := by
  unfold since stored
  rw [List.drop_append_of_le_length hk, List.mem_append]
  cases s.shell <;> simp [eq_comm]

/-- The Lua task is there, so `app_main` has created both tasks. -/
theorem Owed.main {k a : Nat} {s : Handoff} (h : s.Owed k a) : s.main = .returned := by
  by_contra hm
  exact h.lua (h.newest.absent hm)

theorem Owed.handleSet {k a : Nat} {s : Handoff} (h : s.Owed k a) : s.handleSet = true :=
  h.newest.handle.mpr h.lua

theorem Owed.others {k a : Nat} {s t : Handoff} {e : HandoffEvent} (h : s.Owed k a)
    (he : e.task ≠ some .handleLuaCommand) (hr : s.Unlapped e) (hs : s.step e = some t) :
    Others k s t := by
  cases e with
  | setHook | notifyTake | loadIndex | copyRow | finishChunk => exact absurd rfl he
  | createTask =>
    simp only [Handoff.step, h.main] at hs
    cases hs
  | writeRow line =>
    have hr : s.lua ≠ .loaded (!s.activeIndex) := hr
    simp only [Handoff.step] at hs
    split at hs
    · next hsh =>
      have ht := (Option.some.inj hs).symm
      have hold : ∀ idx, idx ≠ !s.activeIndex → t.rows idx = s.rows idx := by
        intro idx hi
        rw [ht]
        exact if_neg hi
      have hactive : t.activeIndex = s.activeIndex := by rw [ht]
      have hsince : ∀ l, l ∈ s.since k → l ∈ t.since k := by
        intro l
        apply since_mono
        rw [stored, stored, ht, hsh]
      refine ⟨by rw [ht], by rw [ht], by rw [ht], by rw [ht], hsince, fun idx hl => ?_, ?_⟩
      · apply hold
        rintro rfl
        exact hr hl
      · rw [hactive, hold s.activeIndex (by cases s.activeIndex <;> simp)]
        exact hsince _
    · cases hs
  | storeIndex =>
    simp only [Handoff.step] at hs
    split at hs
    · next line hw =>
      cases hs
      have hsame : s.stored <+: s.published ++ [line] := by
        rw [stored, hw, List.append_nil]
        exact List.prefix_append _ _
      refine ⟨rfl, rfl, Nat.le_refl _, Nat.le_refl _, fun _ => since_mono hsame,
        fun _ _ => rfl, fun _ => ?_⟩
      show s.rows (!s.activeIndex) ∈ _
      rw [h.newest.wrote line hw]
      let t : Handoff := { s with shell := .switched line, activeIndex := !s.activeIndex }
      exact (mem_since_iff (s := t) h.published).mpr (Or.inr rfl)
    · cases hs
  | notifyGive =>
    simp only [Handoff.step, if_pos h.handleSet] at hs
    split at hs
    · next line hw =>
      cases hs
      have hsame : s.stored <+: s.published ++ [line] ++ [] := by
        rw [stored, hw, List.append_nil]
      refine ⟨rfl, rfl, Nat.le_succ _, ?_, fun _ => since_mono hsame, fun _ _ => rfl,
        since_mono hsame⟩
      rw [List.length_append]
      exact Nat.le_add_right _ _
    · cases hs

/-- The steps of the Lua task until it has handled the line it is owed for: a row
loaded too early costs it another round. -/
def consumerWork (k : Nat) (s : Handoff) : Nat :=
  match s.lua with
  | .absent | .installHook | .running => 4
  | .waiting => 3
  | .taken => 2
  | .loaded idx => if s.rows idx ∈ s.since k then 1 else 5

theorem consumerWork_pos (k : Nat) (s : Handoff) : 0 < s.consumerWork k := by
  unfold consumerWork
  split
  · decide
  · decide
  · decide
  · decide
  · decide
  · split <;> decide

/-- None are left when the line is handled and only to be published. -/
def work (k a : Nat) (s : Handoff) : Nat := if s.due a then 0 else s.consumerWork k

def helper (a : Nat) (s : Handoff) : HandoffTask :=
  if s.due a then .shellTask else .handleLuaCommand

/-- The line copied is one the consumer is owed for. -/
theorem Owed.copy {k a : Nat} {s t : Handoff} {idx : Bool} (h : s.Owed k a)
    (hs : s.step .copyRow = some t) (hl : s.lua = .loaded idx) (hrow : s.rows idx ∈ s.since k) :
    Answered k a t ∨ t.due a = true := by
  simp only [Handoff.step, hl] at hs
  obtain rfl := Option.some.inj hs
  have hmem : s.rows idx ∈ (s.appended ++ [s.rows idx]).drop a := by
    rw [List.drop_append_of_le_length h.appended]
    exact List.mem_append_right _ (List.mem_singleton_self _)
  rcases (mem_since_iff h.published).mp hrow with hpub | hsh
  · exact Or.inl ⟨s.rows idx, hmem, hpub⟩
  · exact Or.inr (due_iff.mpr ⟨s.rows idx, hsh, hmem⟩)

/-- What is due stays so until the shell has published it. -/
theorem Owed.due_step {k a : Nat} {s t : Handoff} {e : HandoffEvent} (h : s.Owed k a)
    (hdue : s.due a = true) (hs : s.step e = some t) :
    Answered k a t ∨ t.due a = true ∧ e.task ≠ some .shellTask := by
  obtain ⟨line, hsh, hline⟩ := due_iff.mp hdue
  cases e with
  | createTask =>
    simp only [Handoff.step, h.main] at hs
    cases hs
  | writeRow l | storeIndex =>
    simp only [Handoff.step, hsh] at hs
    cases hs
  | notifyGive =>
    simp only [Handoff.step, hsh, if_pos h.handleSet] at hs
    obtain rfl := Option.some.inj hs
    refine Or.inl ⟨line, hline, ?_⟩
    show line ∈ (s.published ++ [line]).drop k
    rw [List.drop_append_of_le_length h.published]
    exact List.mem_append_right _ (List.mem_singleton_self _)
  | copyRow =>
    simp only [Handoff.step] at hs
    split at hs
    · next idx hl =>
      cases hs
      refine Or.inr ⟨due_iff.mpr ⟨line, hsh, ?_⟩, by rintro ⟨⟩⟩
      show line ∈ (s.appended ++ [s.rows idx]).drop a
      rw [List.drop_append_of_le_length h.appended]
      exact List.mem_append_left _ hline
    · cases hs
  | setHook | notifyTake | loadIndex | finishChunk =>
    simp only [Handoff.step] at hs
    split at hs
    · cases hs
      exact Or.inr ⟨due_iff.mpr ⟨line, hsh, hline⟩, by rintro ⟨⟩⟩
    · cases hs

theorem Owed.keeps {k a : Nat} {s t : Handoff} {e : HandoffEvent} (h : s.Owed k a)
    (hr : s.Unlapped e) (hs : s.step e = some t) : Answered k a t ∨ t.Owed k a := by
  have hnewest := h.newest.step hs
  -- what is due is looked at once for all steps
  have hdue : s.due a = true → Answered k a t ∨ t.due a = true :=
    fun hd => (h.due_step hd hs).imp_right And.left
  cases e with
  | createTask | writeRow line | storeIndex | notifyGive =>
    have ho := h.others (by rintro ⟨⟩) hr hs
    have hnext : ∀ howed, Answered k a t ∨ t.Owed k a := fun howed =>
      Or.inr ⟨hnewest, ho.lua ▸ h.lua, h.published.trans ho.published, ho.appended ▸ h.appended,
        ho.active h.active, howed⟩
    rcases h.owed with h0 | hl | ⟨idx, hl, hidx⟩ | hd
    · exact hnext (Or.inl (Nat.lt_of_lt_of_le h0 ho.notifications))
    · exact hnext (Or.inr (Or.inl (ho.lua.trans hl)))
    · refine hnext (Or.inr (Or.inr (Or.inl ⟨idx, ho.lua.trans hl, ?_⟩)))
      rw [ho.loaded idx hl]
      exact ho.since _ hidx
    · exact (hdue hd).elim Or.inl fun hd' => hnext (Or.inr (Or.inr (Or.inr hd')))
  | setHook | finishChunk =>
    right
    simp only [Handoff.step] at hs
    split at hs
    · next hl =>
      cases hs
      have howed := h.owed
      simp only [hl] at howed
      refine ⟨hnewest, LuaPc.noConfusion, h.published, h.appended, h.active, ?_⟩
      rcases howed with h0 | hl | ⟨idx, hl, -⟩ | hd
      · exact Or.inl h0
      · cases hl
      · cases hl
      · exact Or.inr (Or.inr (Or.inr hd))
    · cases hs
  | notifyTake =>
    right
    simp only [Handoff.step] at hs
    split at hs
    · cases hs
      exact ⟨hnewest, LuaPc.noConfusion, h.published, h.appended, h.active, Or.inr (Or.inl rfl)⟩
    · cases hs
  | loadIndex =>
    right
    simp only [Handoff.step] at hs
    split at hs
    · cases hs
      exact ⟨hnewest, LuaPc.noConfusion, h.published, h.appended, h.active,
        Or.inr (Or.inr (Or.inl ⟨_, rfl, h.active⟩))⟩
    · cases hs
  | copyRow =>
    have hnext : (0 < t.notifications ∨ t.due a = true) → t.Owed k a := by
      intro howed
      simp only [Handoff.step] at hs
      split at hs
      · cases hs
        refine ⟨hnewest, LuaPc.noConfusion, h.published, ?_, h.active,
          howed.imp_right fun hd => Or.inr (Or.inr hd)⟩
        rw [List.length_append]
        exact h.appended.trans (Nat.le_add_right _ _)
      · cases hs
    rcases h.owed with h0 | hl | ⟨idx, hl, hrow⟩ | hd
    · refine Or.inr (hnext (Or.inl ?_))
      simp only [Handoff.step] at hs
      split at hs
      · cases hs
        exact h0
      · cases hs
    · simp only [Handoff.step, hl] at hs
      cases hs
    · exact (h.copy hs hl hrow).imp_right fun hd => hnext (Or.inr hd)
    · exact (hdue hd).imp_right fun hd => hnext (Or.inr hd)

theorem Owed.hasTurn {k a : Nat} {s : Handoff} (h : s.Owed k a) : s.HasTurn (s.helper a) := by
  unfold helper
  split
  · next hdue =>
    obtain ⟨line, hsh, -⟩ := due_iff.mp hdue
    exact ⟨.notifyGive, rfl, by simp [Handoff.step, hsh, h.handleSet]⟩
  · next hdue =>
    cases hl : s.lua with
    | absent => exact absurd hl h.lua
    | installHook => exact ⟨.setHook, rfl, by simp [Handoff.step, hl]⟩
    | waiting =>
      have howed := h.owed
      simp only [hl, hdue] at howed
      have h0 : 0 < s.notifications := by simpa using howed
      exact ⟨.notifyTake, rfl, by simp [Handoff.step, hl, h0]⟩
    | taken => exact ⟨.loadIndex, rfl, by simp [Handoff.step, hl]⟩
    | loaded idx => exact ⟨.copyRow, rfl, by simp [Handoff.step, hl]⟩
    | running => exact ⟨.finishChunk, rfl, by simp [Handoff.step, hl]⟩

/-- A step of another task leaves the row loaded, which may become a line that does. -/
theorem Others.work_le {k : Nat} {s t : Handoff} (h : Others k s t) :
    t.consumerWork k ≤ s.consumerWork k := by
  unfold consumerWork
  rw [h.lua]
  cases hl : s.lua with
  | loaded idx =>
    have hrow := h.since (s.rows idx)
    dsimp only
    rw [h.loaded idx hl]
    split
    · split <;> omega
    · next hstale => rw [if_neg fun hfresh => hstale (hrow hfresh)]
  | _ => exact Nat.le_refl _

/-- A step of the Lua task is one off its work, or ends it. -/
theorem Owed.consumer_lowers {k a : Nat} {s t : Handoff} {e : HandoffEvent} (h : s.Owed k a)
    (he : e.task = some .handleLuaCommand) (hs : s.step e = some t) :
    Answered k a t ∨ t.due a = true ∨ t.consumerWork k < s.consumerWork k := by
  cases e with
  | createTask | writeRow line | storeIndex | notifyGive => cases he
  | setHook | finishChunk =>
    simp only [Handoff.step] at hs
    split at hs
    · next hl =>
      cases hs
      simp [consumerWork, hl]
    · cases hs
  | notifyTake =>
    simp only [Handoff.step] at hs
    split at hs
    · next hl =>
      cases hs
      simp [consumerWork, hl.1]
    · cases hs
  | loadIndex =>
    simp only [Handoff.step] at hs
    split at hs
    · next hl =>
      cases hs
      have hfresh : s.rows s.activeIndex ∈ since { s with lua := .loaded s.activeIndex } k :=
        h.active
      simp [consumerWork, hl, hfresh]
    · cases hs
  | copyRow =>
    cases hl : s.lua with
    | loaded idx =>
      by_cases hrow : s.rows idx ∈ s.since k
      · exact (h.copy hs hl hrow).imp_right Or.inl
      · simp only [Handoff.step, hl] at hs
        obtain rfl := Option.some.inj hs
        simp [consumerWork, hl, hrow]
    | _ =>
      simp only [Handoff.step, hl] at hs
      cases hs

theorem Owed.lowers {k a : Nat} {s t : Handoff} {e : HandoffEvent} (h : s.Owed k a)
    (hr : s.Unlapped e) (hs : s.step e = some t) : Answered k a t ∨ t.work k a < s.work k a ∨
      t.work k a = s.work k a ∧ t.helper a = s.helper a ∧ e.task ≠ some (s.helper a) := by
  unfold work helper
  by_cases hdue : s.due a = true
  · rcases h.due_step hdue hs with hanswer | ⟨hdue', htask⟩
    · exact Or.inl hanswer
    · right; right
      simp only [hdue, hdue', if_true]
      exact ⟨trivial, trivial, htask⟩
  · by_cases hdue' : t.due a = true
    · right; left
      rw [if_pos hdue', if_neg hdue]
      exact consumerWork_pos k s
    · simp only [if_neg hdue, if_neg hdue']
      by_cases htask : e.task = some .handleLuaCommand
      · rcases h.consumer_lowers htask hs with hanswer | hd | hlt
        · exact Or.inl hanswer
        · exact absurd hd hdue'
        · exact Or.inr (Or.inl hlt)
      · right
        rcases Nat.lt_or_eq_of_le (h.others htask hr hs).work_le with hlt | heq
        · exact Or.inl hlt
        · exact Or.inr ⟨heq, trivial, htask⟩

def ranking (k a : Nat) :
    Ranking handoff Unlapped HandoffEvent.task HasTurn (Owed k a) (Answered k a) Nat where
  rank := work k a
  helper := helper a
  keeps := fun _ _ _ h _ hr hs => h.keeps hr hs
  helps := fun _ h _ => h.hasTurn
  lowers := fun _ _ _ h _ hr hs => h.lowers hr hs

/-- A notification that the Lua task is there for is owed an answer. -/
theorem Newest.owed {s t : Handoff} (h : s.Newest) (hset : s.handleSet = true)
    (hs : s.step .notifyGive = some t) : t.Owed s.published.length s.appended.length := by
  have hnewest := h.step hs
  simp only [Handoff.step, if_pos hset] at hs
  split at hs
  · next line hw =>
    cases hs
    have hlen : s.published.length ≤ (s.published ++ [line]).length := by
      rw [List.length_append]
      exact Nat.le_add_right _ _
    refine ⟨hnewest, h.handle.mp hset, hlen, Nat.le_refl _, (mem_since_iff hlen).mpr (Or.inl ?_),
      Or.inl (Nat.succ_pos _)⟩
    have hrow := h.switched line hw
    show s.rows s.activeIndex ∈ (s.published ++ [line]).drop s.published.length
    rw [List.drop_left, hrow]
    exact List.mem_singleton_self line
  · cases hs

end Handoff

/-- **Every notification is answered.**  At any pace of the three tasks, as long as no
row is written while it is copied: if the Lua task moves as long as it can, and the
shell ends a publication that it has begun, then after a notification given to the Lua
task it handles the line published with it or one published later. -/
theorem handoff_answers (E : Execution handoff) (hunlapped : E.Along Handoff.Unlapped)
    (hfair : E.Fair HandoffEvent.task Handoff.HasTurn) (n : Nat)
    (hgive : E.label n = some .notifyGive) (hset : (E.state n).handleSet = true) :
    ∃ m, n < m ∧ ∃ line ∈ (E.state m).appended.drop (E.state n).appended.length,
      line ∈ (E.state m).published.drop (E.state n).published.length := by
  have hstart : (E.state 0).Newest := by
    rw [E.start]
    exact Handoff.newest_start
  have hn : (E.state n).Newest :=
    Execution.always_from hunlapped (fun _ _ _ h _ hs => h.step hs) hstart n (Nat.zero_le n)
  have howed := hn.owed hset (E.next n _ hgive)
  obtain ⟨m, hm, hanswer⟩ := (Handoff.ranking _ _).reaches hunlapped hfair howed
  exact ⟨m, hm, hanswer⟩

/-- Two lines typed while the chunk of the first runs: one of them is lost. -/
def handoffOverrun : List HandoffEvent :=
  handoffBoot ++ publishLine [97] ++ [.notifyTake, .loadIndex, .copyRow] ++ publishLine [98] ++
    publishLine [99] ++ [.finishChunk, .notifyTake, .loadIndex, .copyRow, .finishChunk]

instance (s : Handoff) : (e : HandoffEvent) → Decidable (s.Unlapped e)
  | .writeRow _ => inferInstanceAs (Decidable (s.lua ≠ .loaded (!s.activeIndex)))
  | .createTask | .storeIndex | .notifyGive | .setHook | .notifyTake | .loadIndex | .copyRow
  | .finishChunk => inferInstanceAs (Decidable True)

/-- The notification of the line lost is answered all the same. -/
theorem handoff_answers_lost : ∃ E : Execution handoff, (∀ i, E.label i = handoffOverrun[i]?) ∧
    ∃ m, 11 < m ∧ ∃ line ∈ (E.state m).appended.drop (E.state 11).appended.length,
      line ∈ (E.state m).published.drop (E.state 11).published.length := by
  have hrun : ∃ s, handoff.run handoffOverrun = some s ∧ s.lua = .waiting ∧
      s.notifications = 0 ∧ s.shell = .reading := ⟨_, rfl, rfl, rfl, rfl⟩
  obtain ⟨s, hs, hl, h0, hsh⟩ := hrun
  have hend : ∀ t, ¬ s.HasTurn t := by
    rintro t ⟨e, he, hstep⟩
    cases e <;> simp [HandoffEvent.task, Handoff.step, hl, h0, hsh] at he hstep
  have hunlapped : handoff.Along Handoff.Unlapped handoffOverrun :=
    Machine.along_of_check _ _ (by decide +kernel)
  exact ⟨Execution.ofRun handoffOverrun s hs, fun _ => rfl,
    handoff_answers _ (Execution.ofRun_along hs hunlapped) (Execution.ofRun_fair hs hend) 11
      rfl rfl⟩

end CLIos
