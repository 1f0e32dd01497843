import CLIos.Core.Shell

/-!
# Handing lines to the Lua task

Three tasks meet in `main/Core_Level.c`: `app_main` creates the other two (and
`xTaskCreate` sets `LuaTaskHandle`), `_ShellTask` publishes a line in three
steps (write the row that is not active, store `active_index`, notify), and
`_HandleLuaCommand` consumes one (take the notification, load `active_index`,
copy the row, run the chunk).  `handoff` interleaves these steps in any order;
the notification count stands for all lines given and not taken yet, and
`ulTaskNotifyTake(pdTRUE, ..)` clears it.

What this is for is a queue: `pending s` are the lines in flight, and the lines
published should be those appended followed by those pending.  They are as long
as the shell waits for the consumer (`Ready`); nothing in the code makes it wait.
-/

namespace CLIos

open Runs

inductive MainPc where
  | createShell
  | createLua
  | returned
deriving DecidableEq

inductive ShellPc where
  | absent
  | reading
  /-- the row that is not active holds the line -/
  | wrote (line : List UInt8)
  /-- `active_index` names it, the notification is still to be given -/
  | switched (line : List UInt8)
deriving DecidableEq

inductive LuaPc where
  | absent
  | installHook
  | waiting
  | taken
  | loaded (idx : Bool)
  | running
deriving DecidableEq

structure Handoff where
  main : MainPc
  shell : ShellPc
  lua : LuaPc
  /-- `LuaTaskHandle` is not NULL -/
  handleSet : Bool
  notifications : Nat
  activeIndex : Bool
  rows : Bool → List UInt8
  published : List (List UInt8)
  appended : List (List UInt8)
  /-- `xTaskNotifyGive` was called with a NULL handle -/
  nullNotify : Bool

inductive HandoffEvent where
  | createTask
  | writeRow (line : List UInt8)
  | storeIndex
  | notifyGive
  | setHook
  | notifyTake
  | loadIndex
  | copyRow
  | finishChunk

namespace Handoff

def start : Handoff where
  main := .createShell
  shell := .absent
  lua := .absent
  handleSet := false
  notifications := 0
  activeIndex := false
  rows := fun _ => []
  published := []
  appended := []
  nullNotify := false

def step (s : Handoff) : HandoffEvent → Option Handoff
  | .createTask =>
    match s.main with
    | .createShell => some { s with main := .createLua, shell := .reading }
    | .createLua => some { s with main := .returned, lua := .installHook, handleSet := true }
    | .returned => none
  | .writeRow line =>
    match s.shell with
    | .reading => some { s with
        shell := .wrote line
        rows := fun i => if i = !s.activeIndex then line else s.rows i }
    | _ => none
  | .storeIndex =>
    match s.shell with
    | .wrote line => some { s with shell := .switched line, activeIndex := !s.activeIndex }
    | _ => none
  | .notifyGive =>
    match s.shell with
    | .switched line =>
      if s.handleSet then
        some { s with
          shell := .reading
          notifications := s.notifications + 1
          published := s.published ++ [line] }
      else
        some { s with shell := .reading, published := s.published ++ [line], nullNotify := true }
    | _ => none
  | .setHook => if s.lua = .installHook then some { s with lua := .waiting } else none
  | .notifyTake =>
    if s.lua = .waiting ∧ 0 < s.notifications then
      some { s with lua := .taken, notifications := 0 }
    else none
  | .loadIndex => if s.lua = .taken then some { s with lua := .loaded s.activeIndex } else none
  | .copyRow =>
    match s.lua with
    | .loaded idx => some { s with lua := .running, appended := s.appended ++ [s.rows idx] }
    | _ => none
  | .finishChunk => if s.lua = .running then some { s with lua := .waiting } else none

/-- When the consumer waits with nothing pending it has appended every published
line once, in order; and no notification went to a NULL handle. -/
def Delivered (s : Handoff) : Prop :=
  (s.lua = .waiting → s.notifications = 0 → s.appended = s.published) ∧ s.nullNotify = false

/-- The shell waits for the consumer: it stores `active_index` only when every
notification has been taken and its index loaded, writes no row whose index the
consumer has loaded and not copied, and notifies only a task that exists. -/
def Ready (s : Handoff) : HandoffEvent → Prop
  | .writeRow _ => s.lua ≠ .loaded (!s.activeIndex)
  | .storeIndex => s.notifications = 0 ∧ s.lua ≠ .taken
  | .notifyGive => s.handleSet = true
  | _ => True

/-! ## The queue behind it -/

/-- The line the consumer is at, not appended yet. -/
def inHand (s : Handoff) : List (List UInt8) :=
  match s.lua with
  | .taken => [s.rows s.activeIndex]
  | .loaded idx => [s.rows idx]
  | _ => []

/-- The lines published and not appended, oldest first. -/
def pending (s : Handoff) : List (List UInt8) :=
  s.inHand ++ if s.notifications = 0 then [] else [s.rows s.activeIndex]

structure Inv (s : Handoff) : Prop where
  queue : s.published = s.appended ++ s.pending
  single : s.notifications ≤ 1
  absent : s.main ≠ .returned → s.lua = .absent
  taken : s.lua = .taken → s.notifications = 0
  wrote : ∀ line, s.shell = .wrote line → s.lua ≠ .loaded (!s.activeIndex)
  switched : ∀ line, s.shell = .switched line → s.rows s.activeIndex = line ∧
    s.notifications = 0 ∧ s.lua ≠ .taken ∧ s.lua ≠ .loaded s.activeIndex
  row : ∀ line, s.shell = .wrote line → s.rows (!s.activeIndex) = line
  notNull : s.nullNotify = false

theorem Inv.delivered {s : Handoff} (h : Inv s) : s.Delivered := by
  refine ⟨fun hw h0 => ?_, h.notNull⟩
  have hq := h.queue
  simp only [pending, inHand, hw, h0, if_true, List.append_nil] at hq
  exact hq.symm

theorem inv_start : Inv start where
  queue := rfl
  single := Nat.zero_le _
  absent := fun _ => rfl
  taken := by simp [start]
  wrote := by simp [start]
  switched := by simp [start]
  row := by simp [start]
  notNull := rfl

theorem Inv.createTask {s s' : Handoff} (h : Inv s) (hstep : s.step .createTask = some s') :
    Inv s' := by
  simp only [step] at hstep
  split at hstep
  · next hm =>
    cases hstep
    have ha := h.absent (by rw [hm]; simp)
    exact ⟨h.queue, h.single, fun _ => ha, h.taken, by simp, by simp, by simp, h.notNull⟩
  · next hm =>
    cases hstep
    have ha := h.absent (by rw [hm]; simp)
    have hq := h.queue
    simp only [pending, inHand, ha] at hq
    exact ⟨hq, h.single, by simp, by simp, by simp,
      fun line hl => ⟨(h.switched line hl).1, (h.switched line hl).2.1, by simp, by simp⟩,
      h.row, h.notNull⟩
  · cases hstep

/-- Writing the other row touches no line in flight. -/
theorem Inv.writeRow {s s' : Handoff} {line : List UInt8} (h : Inv s)
    (hr : s.lua ≠ .loaded (!s.activeIndex)) (hstep : s.step (.writeRow line) = some s') :
    Inv s' := by
  simp only [step] at hstep
  split at hstep
  · cases hstep
    have hactive : ∀ r : List UInt8,
        (if s.activeIndex = !s.activeIndex then r else s.rows s.activeIndex) =
          s.rows s.activeIndex := by
      intro r
      rw [if_neg (by cases s.activeIndex <;> simp)]
    refine ⟨?_, h.single, h.absent, h.taken, ?_, by simp, ?_, h.notNull⟩
    · rw [h.queue]
      simp only [pending, inHand, hactive]
      cases hl : s.lua with
      | loaded idx =>
        have hidx : idx ≠ !s.activeIndex := fun hi => hr (by rw [hl, hi])
        simp only [if_neg hidx]
      | _ => rfl
    · exact fun _ _ => hr
    · intro l hl
      cases hl
      exact if_pos rfl
  · cases hstep

theorem Inv.storeIndex {s s' : Handoff} (h : Inv s) (h0 : s.notifications = 0)
    (hr : s.lua ≠ .taken) (hstep : s.step .storeIndex = some s') : Inv s' := by
  simp only [step] at hstep
  split at hstep
  · next line hw =>
    cases hstep
    refine ⟨?_, h.single, h.absent, h.taken, by simp, ?_, by simp, h.notNull⟩
    · rw [h.queue]
      simp only [pending, inHand, h0, if_true]
      cases hl : s.lua with
      | taken => exact absurd hl hr
      | _ => rfl
    · intro l hl
      cases hl
      exact ⟨h.row line hw, h0, hr, h.wrote line hw⟩
  · cases hstep

theorem Inv.notifyGive {s s' : Handoff} (h : Inv s) (hr : s.handleSet = true)
    (hstep : s.step .notifyGive = some s') : Inv s' := by
  simp only [step] at hstep
  split at hstep
  · next line hw =>
    obtain ⟨hrow, h0, hnt, hnl⟩ := h.switched line hw
    rw [if_pos hr] at hstep
    cases hstep
    refine ⟨?_, by simp [h0], h.absent, fun ht => absurd ht hnt, by simp, by simp, by simp,
      h.notNull⟩
    have hq := h.queue
    simp only [pending, h0, if_true, List.append_nil] at hq
    simp only [pending, h0, hq, hrow, List.append_assoc]
    rfl
  · cases hstep

/-- A step of the consumer changes its place, the count and the lines appended.
It keeps the invariant if the queue still adds up: a line is taken in hand only
with its notification, and an index loaded only from there. -/
theorem Inv.consume {s : Handoff} (h : Inv s) (lua : LuaPc) (n : Nat)
    (appended : List (List UInt8)) (hl : s.lua ≠ .absent)
    (hq : s.published =
      appended ++ pending { s with lua := lua, notifications := n, appended := appended })
    (hn : n ≤ s.notifications) (ht : lua = .taken → n = 0 ∧ s.notifications ≠ 0)
    (hld : ∀ idx, lua = .loaded idx → idx = s.activeIndex ∧ s.lua = .taken) :
    Inv { s with lua := lua, notifications := n, appended := appended } where
  queue := hq
  single := Nat.le_trans hn h.single
  absent := fun hm => absurd (h.absent hm) hl
  taken := fun hlua => (ht hlua).1
  wrote := by
    intro line _ hlua
    have := (hld _ hlua).1
    cases hi : s.activeIndex <;> simp [hi] at this
  switched := by
    intro line hs
    obtain ⟨hrow, h0, hnt, -⟩ := h.switched line hs
    exact ⟨hrow, by show n = 0; omega, fun hlua => (ht hlua).2 h0, fun hlua => hnt (hld _ hlua).2⟩
  row := h.row
  notNull := h.notNull

/-- From a place with no line in hand the consumer goes to wait. -/
theorem Inv.await {s : Handoff} (h : Inv s) (hl : s.lua = .installHook ∨ s.lua = .running) :
    Inv { s with lua := .waiting } := by
  have hpending : pending { s with lua := .waiting } = s.pending := by
    rcases hl with hl | hl <;> simp only [pending, inHand, hl]
  refine h.consume .waiting s.notifications s.appended ?_ ?_ (Nat.le_refl _) (by simp) (by simp)
  · rcases hl with hl | hl <;> rw [hl] <;> exact LuaPc.noConfusion
  · exact h.queue.trans (congrArg _ hpending.symm)

theorem Inv.setHook {s s' : Handoff} (h : Inv s) (hstep : s.step .setHook = some s') : Inv s' := by
  simp only [step] at hstep
  split at hstep
  · next hl =>
    cases hstep
    exact h.await (Or.inl hl)
  · cases hstep

/-- Taking the notification takes the one line it stands for in hand. -/
theorem Inv.notifyTake {s s' : Handoff} (h : Inv s) (hstep : s.step .notifyTake = some s') :
    Inv s' := by
  simp only [step] at hstep
  split at hstep
  · next hl =>
    obtain ⟨hw, hpos⟩ := hl
    cases hstep
    have h1 : s.notifications ≠ 0 := by omega
    refine h.consume .taken 0 s.appended (by rw [hw]; simp) ?_ (Nat.zero_le _)
      (fun _ => ⟨rfl, h1⟩) (by simp)
    rw [h.queue]
    simp only [pending, inHand, hw, if_neg h1]
    rfl
  · cases hstep

theorem Inv.loadIndex {s s' : Handoff} (h : Inv s) (hstep : s.step .loadIndex = some s') :
    Inv s' := by
  simp only [step] at hstep
  split at hstep
  · next hl =>
    cases hstep
    refine h.consume (.loaded s.activeIndex) s.notifications s.appended (by rw [hl]; simp) ?_
      (Nat.le_refl _) (by simp) ?_
    · rw [h.queue]
      simp only [pending, inHand, hl]
    · intro idx hidx
      cases hidx
      exact ⟨rfl, hl⟩
  · cases hstep

theorem Inv.copyRow {s s' : Handoff} (h : Inv s) (hstep : s.step .copyRow = some s') : Inv s' := by
  simp only [step] at hstep
  split at hstep
  · next idx hl =>
    cases hstep
    refine h.consume .running s.notifications (s.appended ++ [s.rows idx]) (by rw [hl]; simp) ?_
      (Nat.le_refl _) (by simp) (by simp)
    rw [h.queue]
    simp only [pending, inHand, hl, List.append_assoc, List.nil_append]
  · cases hstep

theorem Inv.finishChunk {s s' : Handoff} (h : Inv s) (hstep : s.step .finishChunk = some s') :
    Inv s' := by
  simp only [step] at hstep
  split at hstep
  · next hl =>
    cases hstep
    exact h.await (Or.inr hl)
  · cases hstep

theorem Inv.step {s s' : Handoff} {e : HandoffEvent} (h : Inv s) (hr : s.Ready e)
    (hstep : s.step e = some s') : Inv s' := by
  cases e with
  | createTask => exact h.createTask hstep
  | writeRow line => exact h.writeRow hr hstep
  | storeIndex => exact h.storeIndex hr.1 hr.2 hstep
  | notifyGive => exact h.notifyGive hr hstep
  | setHook => exact h.setHook hstep
  | notifyTake => exact h.notifyTake hstep
  | loadIndex => exact h.loadIndex hstep
  | copyRow => exact h.copyRow hstep
  | finishChunk => exact h.finishChunk hstep

end Handoff

def handoff : Machine Handoff HandoffEvent where
  init := Handoff.start
  step := Handoff.step

/-- **Delivery.**  In a run in which the shell waits for the consumer, every
published line is appended exactly once and in order. -/
theorem handoff_delivers (es : List HandoffEvent) (h : handoff.Along Handoff.Ready es) :
    handoff.Always Handoff.Delivered es :=
  Machine.always_mono (fun _ hs => hs.delivered)
    (Machine.always_of_along Handoff.inv_start (fun _ _ _ hI hr hs => hI.step hr hs) es h)

instance (s : Handoff) (e : HandoffEvent) : Decidable (s.Ready e) := by
  cases e <;> unfold Handoff.Ready <;> infer_instance

/-- The two `xTaskCreate` of `app_main` and the first steps of the Lua task. -/
def handoffBoot : List HandoffEvent := [.createTask, .createTask, .setHook]

def publishLine (line : List UInt8) : List HandoffEvent :=
  [.writeRow line, .storeIndex, .notifyGive]

/-- Two lines, the second typed while the chunk of the first runs. -/
theorem handoff_delivers_two :
    handoff.Always Handoff.Delivered (handoffBoot ++ publishLine [97] ++
      [.notifyTake, .loadIndex, .copyRow] ++ publishLine [98] ++
      [.finishChunk, .notifyTake, .loadIndex, .copyRow, .finishChunk]) :=
  handoff_delivers _ (Machine.along_of_check _ _ (by decide +kernel))

/-- Two lines typed while a chunk runs: the first of them is never appended. -/
theorem handoff_loses_line :
    ¬ ∀ es, handoff.Always Handoff.Delivered es := by
  intro h
  have hrun : ∃ s, handoff.run (handoffBoot ++ publishLine [97] ++
      [.notifyTake, .loadIndex, .copyRow] ++ publishLine [98] ++ publishLine [99] ++
      [.finishChunk, .notifyTake, .loadIndex, .copyRow, .finishChunk]) = some s ∧
        s.lua = .waiting ∧ s.notifications = 0 ∧ s.appended = [[97], [99]] ∧
        s.published = [[97], [98], [99]] := ⟨_, rfl, rfl, rfl, rfl, rfl⟩
  obtain ⟨s, hs, hw, h0, ha, hp⟩ := hrun
  have heq := (h _ _ s List.prefix_rfl hs).1 hw h0
  rw [ha, hp] at heq
  exact absurd heq (by decide)

/-- A publish between the take and the load: the line is appended twice. -/
example : (handoff.run (handoffBoot ++ publishLine [97] ++ [.notifyTake] ++ publishLine [98] ++
    [.loadIndex, .copyRow, .finishChunk, .notifyTake, .loadIndex, .copyRow, .finishChunk])).map
      Handoff.appended = some [[98], [98]] := by decide +kernel

/-- A line typed before the second `xTaskCreate` notifies a NULL handle. -/
example : (handoff.run (.createTask :: publishLine [97])).map Handoff.nullNotify = some true := by
  decide +kernel

end CLIos
