import CLIos.Fos.TaskCreate

/-!
# The period of a task

`L_TASK_CREATE` narrows the period to `int`, puts 100 for 0 and stores it in the
param block; `lua_task` divides it by `portTICK_PERIOD_MS`, which is unsigned, and
hands the quotient to `vTaskDelayUntil` after every call of the Lua function
(components/FOS/fos_task.c).

The test for 0 is on milliseconds, not on ticks, and nothing tests the sign.  A
period from 2^31 on is a negative `int`, but the division makes it unsigned again.
-/

namespace CLIos

open LuaApi

/-- `param->timer / portTICK_PERIOD_MS`, as a `TickType_t`. -/
def TaskParam.xInterval (p : TaskParam) (tickMs : Nat) : Nat := toUint32 p.timer / tickMs

/-- A period of 0 means 100 ms. -/
def askedMs (period : Int) : Int := if period = 0 then 100 else period

/-- A task with this period sleeps for a tick at least, and less than a tick more or
less than it was asked to; or it is refused. -/
def PeriodKept (tickMs : Nat) (period : Int) : Prop :=
  ∀ (h h' : TaskHeap) (a : CreateArgs) (t : CreateTurn) (param : Nat) (p : TaskParam),
    a.timer = some period → h.lTaskCreate a t = some (h', .userdata param) →
    h'.blocks.lookup param = some p →
    0 ≤ period ∧ 1 ≤ p.xInterval tickMs ∧
      ((p.xInterval tickMs * tickMs : Nat) - askedMs period).natAbs < tickMs

/-! ## The interval of a task that was made -/

/-- A userdata is returned for a block with the narrowed period. -/
theorem lTaskCreate_timer {h h' : TaskHeap} {a : CreateArgs} {t : CreateTurn} {param : Nat}
    {p : TaskParam} (hcall : h.lTaskCreate a t = some (h', .userdata param))
    (hp : h'.blocks.lookup param = some p) : p.timer = a.timerMs := by
  cases ha : a.badArgument with
  | some msg =>
    rw [lTaskCreate_bad ha] at hcall
    cases hcall
  | none =>
    cases hb : t.block with
    | none =>
      rw [lTaskCreate_noBlock ha hb] at hcall
      cases hcall
    | some block =>
      cases hs : t.spawned with
      | true =>
        obtain ⟨h'', w, hcall', -, -, -, -, hblocks⟩ := lTaskCreate_spawned (h := h) ha hb hs
        obtain ⟨rfl, hanswer⟩ := Prod.mk.inj (Option.some.inj (hcall.symm.trans hcall'))
        cases hanswer
        rw [hblocks, List.lookup_cons_self] at hp
        cases hp
        rfl
      | false =>
        cases hq : t.queue with
        | none =>
          rw [lTaskCreate_noTask_noQueue ha hb hq hs] at hcall
          cases hcall
        | some q =>
          rw [lTaskCreate_noTask ha hb hq hs] at hcall
          cases hcall

/-- There is a task with this period. -/
theorem exists_task (period : Int) : ∃ (h h' : TaskHeap) (a : CreateArgs) (t : CreateTurn)
    (param : Nat) (p : TaskParam), a.timer = some period ∧
      h.lTaskCreate a t = some (h', .userdata param) ∧ h'.blocks.lookup param = some p ∧
      p.timer = a.timerMs := by
  let h : TaskHeap := ⟨[], [], [], []⟩
  let a : CreateArgs := ⟨none, none, none, none, some period⟩
  let t : CreateTurn := ⟨0, some 64, some 80, true⟩
  obtain ⟨h', w, hcall, -, -, -, -, hblocks⟩ :=
    lTaskCreate_spawned (h := h) (a := a) (t := t) rfl rfl rfl
  exact ⟨h, h', a, t, 64, _, rfl, hcall, by rw [hblocks, List.lookup_cons_self], rfl⟩

/-- What the division sees of a period. -/
def dividend (period : Int) : Nat :=
  if period % 4294967296 = 0 then 100 else (period % 4294967296).toNat

theorem dividend_cases (period : Int) :
    (period % 4294967296 = 0 ∧ dividend period = 100) ∨
      (dividend period : Int) = period % 4294967296 := by
  unfold dividend
  by_cases hzero : period % 4294967296 = 0
  · rw [if_pos hzero]
    exact Or.inl ⟨hzero, rfl⟩
  · rw [if_neg hzero]
    omega

theorem toUint32_timerMs {a : CreateArgs} {period : Int} (h : a.timer = some period) :
    toUint32 a.timerMs = dividend period := by
  unfold CreateArgs.timerMs dividend toUint32
  simp only [h, Option.getD_some, toInt_eq]
  by_cases hzero : period % 4294967296 = 0
  · rw [if_pos hzero, if_pos (show period % 4294967296 < 2147483648 by omega), if_pos hzero]
    rfl
  · rw [if_neg hzero]
    by_cases hsmall : period % 4294967296 < 2147483648
    · rw [if_pos hsmall, if_neg hzero]
      omega
    · -- negative as an `int`, and the same again as a `TickType_t`
      rw [if_neg hsmall, if_neg (by omega)]
      omega

theorem periodKept_iff_dividend (tickMs : Nat) (period : Int) :
    PeriodKept tickMs period ↔
      0 ≤ period ∧ 1 ≤ dividend period / tickMs ∧
        ((dividend period / tickMs * tickMs : Nat) - askedMs period).natAbs < tickMs := by
  constructor
  · intro hkept
    obtain ⟨h, h', a, t, param, p, ha, hcall, hp, htimer⟩ := exists_task period
    have := hkept h h' a t param p ha hcall hp
    rwa [TaskParam.xInterval, htimer, toUint32_timerMs ha] at this
  · intro hkept h h' a t param p ha hcall hp
    rw [TaskParam.xInterval, lTaskCreate_timer hcall hp, toUint32_timerMs ha]
    exact hkept

/-- **Periods.**  A task's period is kept exactly if it is 0 with a tick of 100 ms at
most, or positive, a tick long at least, and representable in 32 bits without a sign. -/
theorem task_period_iff (tickMs : Nat) (htick : 0 < tickMs) (period : Int) :
    PeriodKept tickMs period ↔
      (period = 0 ∧ tickMs ≤ 100) ∨ (0 < period ∧ period < 4294967296 ∧ tickMs ≤ period) := by
  have hle := Nat.div_mul_le_self (dividend period) tickMs
  have hlt : dividend period < dividend period / tickMs * tickMs + tickMs :=
    Nat.lt_div_mul_add htick
  rw [periodKept_iff_dividend, Nat.one_le_div_iff htick]
  unfold askedMs
  by_cases hzero : period = 0
  · subst hzero
    have hd : dividend 0 = 100 := rfl
    rw [hd] at hle hlt ⊢
    rw [if_pos rfl]
    omega
  · rw [if_neg hzero]
    constructor
    · rintro ⟨hnonneg, hpos, hclose⟩
      right
      -- what a larger period loses is more than the tick, which the rest still holds
      have hsmall : period < 4294967296 := by
        rcases dividend_cases period with ⟨hzero, hd⟩ | hd <;> omega
      rcases dividend_cases period with ⟨hzero, hd⟩ | hd <;> omega
    · rintro (⟨h0, -⟩ | ⟨hpos, hsmall, htick⟩)
      · exact absurd h0 hzero
      · rcases dividend_cases period with ⟨hzero, hd⟩ | hd <;> omega

theorem task_period_500 : PeriodKept 10 500 :=
  (task_period_iff 10 (by decide) 500).mpr (Or.inr ⟨by decide, by decide, by decide⟩)

/-- 5 ms with a tick of 10 ms. -/
theorem task_period_5 : ¬ ∀ tickMs period, 0 < tickMs → PeriodKept tickMs period := by
  intro h
  have hkept := (periodKept_iff_dividend 10 5).mp (h 10 5 (by decide))
  exact absurd hkept.2.1 (by decide)

end CLIos
