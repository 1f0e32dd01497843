import CLIos.Ble.Ble

/-!
# Bringing the stack up again

A failed call is to be repeated, so what the two functions do to the stack may
not add up.  `lua_ble_init` initialises the port twice on its own, and keeps the
first time if the second fails; `lua_ble_gatt_register` keeps a table that it has
added when a later step fails.
-/

namespace CLIos

open Runs

namespace Ble

structure AtMostOnce (s : Ble) : Prop where
  portInits : s.portInits ≤ 1
  hostTasks : s.hostTasks ≤ 1
  uartAdds : s.uartAdds ≤ 1
  hidAdds : s.hidAdds ≤ 1

/-- A call made now can return true, whichever of the two it is. -/
def CanSucceed (s : Ble) : Prop :=
  (∃ t, (s.luaBleInit t).2 = .ok) ∧ ∃ t, (s.luaBleGattRegister t).2 = .ok

/-- After a call that returned false the next one can succeed. -/
def CanRetry (s : Ble) (e : BleEvent) : Prop :=
  ∀ msg s', s.answer e = some (.failed msg) → s.step e = some s' → s'.CanSucceed

/-- An `init` fails before it has initialised the port, or after it has done so
once, if the port was not initialised before; a `gatt_register` fails before it has
added the UART table, or that table was not added before. -/
def Smooth (s : Ble) : BleEvent → Prop
  | .init t => t.memReleased = true → t.portInit = true →
      s.portInits = 0 ∧ t.portInitAgain = false
  | .gattRegister t =>
    t.failure = some .countUart ∨ t.failure = some .addUart ∨ s.uartAdds = 0
  | _ => True

/-- What a run of smooth steps leaves: `init` has not got as far as its second
`nimble_port_init`, so the stack does not synchronise. -/
structure Unstarted (s : Ble) : Prop where
  nimbleReady : s.nimbleReady = false
  syncCb : s.syncCb = false
  portInits : s.portInits ≤ 1
  hostTasks : s.hostTasks = 0
  uartAdds : s.uartAdds ≤ 1
  hidAdds : s.hidAdds ≤ s.uartAdds

variable {s s' : Ble}

theorem Unstarted.atMostOnce (h : s.Unstarted) : s.AtMostOnce :=
  ⟨h.portInits, h.hostTasks.le.trans (Nat.zero_le 1), h.uartAdds, h.hidAdds.trans h.uartAdds⟩

/-! ## The next call -/

/-- An `init` in which every call succeeds. -/
def allStarted : InitTurn := ⟨true, true, true, true⟩

/-- A `gatt_register` in which every call succeeds. -/
def allRegistered : GattTurn := ⟨none, fun _ => some 1, by simp, by simp⟩

/-- Nothing that a call leaves stands in the way of the next one. -/
theorem canSucceed (s : Ble) : s.CanSucceed := by
  refine ⟨⟨allStarted, ?_⟩, ⟨allRegistered, rfl⟩⟩
  unfold luaBleInit
  split_ifs <;> first | rfl | contradiction

theorem canRetry (s : Ble) (e : BleEvent) : s.CanRetry e := fun _ s' _ _ => canSucceed s'

/-! ## `init` -/

/-- A call gets past both `nimble_port_init`, the first, or none. -/
theorem luaBleInit_cases (hready : s.nimbleReady = false) (t : InitTurn) :
    (t.memReleased = true ∧ t.portInit = true ∧ t.portInitAgain = true ∧
        (s.luaBleInit t).1.portInits = s.portInits + 2) ∨
      (t.memReleased = true ∧ t.portInit = true ∧ t.portInitAgain = false ∧
        (s.luaBleInit t).1 = { s with portInits := s.portInits + 1 }) ∨
      (¬ (t.memReleased = true ∧ t.portInit = true) ∧ (s.luaBleInit t).1 = s) := by
  unfold luaBleInit
  rw [if_neg (by simp [hready])]
  cases hmem : t.memReleased with
  | false => right; right; simp
  | true =>
    cases hport : t.portInit with
    | false => right; right; simp
    | true =>
      cases hagain : t.portInitAgain with
      | false => right; left; simp
      | true => left; cases t.synced <;> simp [bleOnSync]

/-- The port is initialised at most once more. -/
theorem init_smooth_iff (h : s.Unstarted) (t : InitTurn) :
    (s.luaBleInit t).1.AtMostOnce ↔ s.Smooth (.init t) := by
  rcases luaBleInit_cases h.nimbleReady t with ⟨hmem, hport, hagain, htwo⟩ |
    ⟨hmem, hport, hagain, heq⟩ | ⟨hearly, heq⟩
  · refine iff_of_false (fun hone => ?_) fun hsmooth => ?_
    · have := hone.portInits
      omega
    · rw [(hsmooth hmem hport).2] at hagain
      cases hagain
  · rw [heq]
    constructor
    · intro hone _ _
      exact ⟨Nat.le_zero.mp (Nat.le_of_succ_le_succ hone.portInits), hagain⟩
    · intro hsmooth
      exact ⟨Nat.succ_le_succ (hsmooth hmem hport).1.le, h.atMostOnce.hostTasks, h.uartAdds,
        h.atMostOnce.hidAdds⟩
  · rw [heq]
    exact iff_of_true h.atMostOnce fun hmem hport => absurd ⟨hmem, hport⟩ hearly

theorem Unstarted.luaBleInit (h : s.Unstarted) (t : InitTurn) (hsmooth : s.Smooth (.init t)) :
    (s.luaBleInit t).1.Unstarted := by
  have hone := (init_smooth_iff h t).mpr hsmooth
  rcases luaBleInit_cases h.nimbleReady t with ⟨-, -, -, htwo⟩ | ⟨-, -, -, heq⟩ | ⟨-, heq⟩
  · have := hone.portInits
    omega
  · rw [heq] at hone ⊢
    exact ⟨h.nimbleReady, h.syncCb, hone.portInits, h.hostTasks, h.uartAdds, h.hidAdds⟩
  · rwa [heq]

/-! ## `gatt_register` -/

/-- A call stops with the state it found, or it adds the UART table and perhaps
the HID table. -/
theorem gattRegister_cases (s : Ble) (t : GattTurn) :
    ((t.failure = some .countUart ∨ t.failure = some .addUart) ∧ (s.luaBleGattRegister t).1 = s) ∨
      (¬ (t.failure = some .countUart ∨ t.failure = some .addUart) ∧
        ∃ hid assigned handles registered, hid ≤ 1 ∧ (s.luaBleGattRegister t).1 =
          { s with
            uartAdds := s.uartAdds + 1
            hidAdds := s.hidAdds + hid
            assigned := assigned
            handles := handles
            registered := registered }) := by
  unfold luaBleGattRegister
  rcases t.failure with _ | _ | _ | _ | _ | _
  · exact Or.inr ⟨by simp, 1, _, _, _, Nat.le_refl 1, rfl⟩
  · exact Or.inl ⟨Or.inl rfl, rfl⟩
  · exact Or.inl ⟨Or.inr rfl, rfl⟩
  · exact Or.inr ⟨by simp, 0, _, _, _, Nat.zero_le 1, rfl⟩
  · exact Or.inr ⟨by simp, 0, _, _, _, Nat.zero_le 1, rfl⟩
  · exact Or.inr ⟨by simp, 1, _, _, _, Nat.le_refl 1, rfl⟩

theorem Unstarted.gattRegister (h : s.Unstarted) (t : GattTurn)
    (hsmooth : s.Smooth (.gattRegister t)) : (s.luaBleGattRegister t).1.Unstarted := by
  rcases gattRegister_cases s t with ⟨-, heq⟩ | ⟨hpast, hid, _, _, _, hhid, heq⟩
  · rwa [heq]
  · rw [heq]
    have hfirst : s.uartAdds = 0 := by
      rcases hsmooth with hcount | hadd | hzero
      · exact absurd (Or.inl hcount) hpast
      · exact absurd (Or.inr hadd) hpast
      · exact hzero
    have hnone := h.hidAdds
    exact ⟨h.nimbleReady, h.syncCb, h.portInits, h.hostTasks, by simp [hfirst], by
      show s.hidAdds + hid ≤ s.uartAdds + 1
      omega⟩

/-- Only one call gets past the UART table. -/
theorem gattRegister_smooth_iff (h : s.Unstarted) (t : GattTurn) :
    (s.luaBleGattRegister t).1.AtMostOnce ↔ s.Smooth (.gattRegister t) := by
  constructor
  · intro hone
    rcases gattRegister_cases s t with ⟨hcount | hadd, -⟩ | ⟨-, _, _, _, _, -, heq⟩
    · exact Or.inl hcount
    · exact Or.inr (Or.inl hadd)
    · rw [heq] at hone
      exact Or.inr (Or.inr (Nat.le_zero.mp (Nat.le_of_succ_le_succ hone.uartAdds)))
  · intro hsmooth
    exact (h.gattRegister t hsmooth).atMostOnce

/-! ## Every other event -/

theorem step_frame (e : BleEvent) (hinit : ∀ t, e ≠ .init t) (hgatt : ∀ t, e ≠ .gattRegister t)
    (hsync : e ≠ .sync) (hstep : s.step e = some s') :
    ∃ conn live sent, s' = { s with connHandle := conn, live := live, notifications := sent } := by
  cases e with
  | init t => exact absurd rfl (hinit t)
  | gattRegister t => exact absurd rfl (hgatt t)
  | sync => exact absurd rfl hsync
  | uartSend badArgument data t =>
    obtain rfl := Option.some.inj hstep
    rw [luaBleUartSend_eq]
    split_ifs
    · exact ⟨_, _, _, rfl⟩
    · exact ⟨_, _, _, rfl⟩
  | hidKey a t =>
    obtain rfl := Option.some.inj hstep
    rcases luaBleHidSendKey_cases s a t with heq | ⟨buf, heq⟩ <;> rw [heq]
    · exact ⟨_, _, _, rfl⟩
    · exact ⟨_, _, _, rfl⟩
  | hidMouse a t =>
    obtain rfl := Option.some.inj hstep
    rcases luaBleHidSendMouse_cases s a t with heq | ⟨buf, heq⟩ <;> rw [heq]
    · exact ⟨_, _, _, rfl⟩
    · exact ⟨_, _, _, rfl⟩
  | connect status conn =>
    rcases step_connect hstep with rfl | rfl
    · exact ⟨_, _, _, rfl⟩
    · exact ⟨_, _, _, rfl⟩
  | disconnect conn =>
    obtain ⟨-, rfl⟩ := step_disconnect hstep
    exact ⟨_, _, _, rfl⟩

theorem Unstarted.frame (h : s.Unstarted) (conn : Int) (live : List Nat)
    (sent : List Notification) :
    Unstarted { s with connHandle := conn, live := live, notifications := sent } :=
  ⟨h.nimbleReady, h.syncCb, h.portInits, h.hostTasks, h.uartAdds, h.hidAdds⟩

theorem Unstarted.step (h : s.Unstarted) {e : BleEvent} (hsmooth : s.Smooth e)
    (hstep : s.step e = some s') : s'.Unstarted := by
  by_cases hinit : ∃ t, e = .init t
  · obtain ⟨t, rfl⟩ := hinit
    obtain rfl := Option.some.inj hstep
    exact h.luaBleInit t hsmooth
  by_cases hgatt : ∃ t, e = .gattRegister t
  · obtain ⟨t, rfl⟩ := hgatt
    obtain rfl := Option.some.inj hstep
    exact h.gattRegister t hsmooth
  by_cases hsync : e = .sync
  · subst hsync
    rw [step_sync_iff, h.syncCb] at hstep
    exact absurd hstep.1 Bool.false_ne_true
  obtain ⟨conn, live, sent, rfl⟩ :=
    step_frame e (not_exists.mp hinit) (not_exists.mp hgatt) hsync hstep
  exact h.frame conn live sent

theorem smooth_iff (h : s.Unstarted) (e : BleEvent) (hstep : s.step e = some s') :
    s'.AtMostOnce ↔ s.Smooth e := by
  cases e with
  | init t =>
    obtain rfl := Option.some.inj hstep
    exact init_smooth_iff h t
  | gattRegister t =>
    obtain rfl := Option.some.inj hstep
    exact gattRegister_smooth_iff h t
  | _ =>
    -- these calls do not bring anything up
    have hnext : s'.Unstarted := h.step (by trivial) hstep
    exact iff_of_true hnext.atMostOnce trivial

end Ble

/-! ## Every run -/

/-- **When bringing the stack up can be repeated.**  Exactly as long as one `init`
at most initialises the port, and fails when it does so again, and one
`gatt_register` at most gets past the UART table. -/
theorem bringUp_iff (es : List BleEvent) :
    ble.Always Ble.AtMostOnce es ∧ ble.Along Ble.CanRetry es ↔ ble.Along Ble.Smooth es := by
  have hinit : ble.init.Unstarted :=
    ⟨rfl, rfl, Nat.zero_le 1, rfl, Nat.zero_le 1, Nat.le_refl 0⟩
  rw [ble.always_iff_along_next Ble.AtMostOnce hinit.atMostOnce, ← ble.along_and]
  refine Machine.along_iff_along hinit (fun s e s' hs hstep => ⟨?_, fun hQ => hs.step hQ hstep⟩) es
  refine Iff.trans (and_iff_left (Ble.canRetry s e)) ?_
  refine Iff.trans ?_ (Ble.smooth_iff hs e hstep)
  constructor
  · intro hnext
    exact hnext s' hstep
  · intro hone t ht
    obtain rfl := Option.some.inj (hstep.symm.trans ht)
    exact hone

/-- One `init`, in which nothing fails. -/
theorem init_twice : ¬ ∀ es, ble.Always Ble.AtMostOnce es ∧ ble.Along Ble.CanRetry es := by
  intro h
  have hone := (h [.init ⟨true, true, true, true⟩]).1 _ _ List.prefix_rfl rfl
  exact absurd hone.portInits (by decide)

end CLIos
