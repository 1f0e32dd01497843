import CLIos.Net.WifiAborts

/-!
# Refused Wi-Fi calls

`wifi.mode` is to refuse a mode that is none of the three, `wifi.sta.stop` and
`wifi.ap.stop` a level other than 0 and 1, and both before initialisation
(components/NET/net_wifi.c).

`L_WIFI_MODE` looks at the mode after it has initialised the driver, and as an
`int`; the two stops look at the level as a `uint8_t`.
-/

namespace CLIos

open LuaApi Runs

inductive WifiCall where
  | mode (m : Option Int)
  | staStop (level : Option Int)
  | apStop (level : Option Int)
deriving DecidableEq

def WifiCall.event {ε : Type} : WifiCall → WifiEvent ε
  | .mode m => .mode m
  | .staStop level => .staStop level
  | .apStop level => .apStop level

namespace Wifi

variable {δ ε : Type} (D : WifiDriver δ ε)

/-- The call with its answer. -/
def perform (s : Wifi δ) : WifiCall → Option (Wifi δ × WifiAnswer)
  | .mode m => s.lWifiMode D m
  | .staStop level => s.lWifiStaStop D level
  | .apStop level => s.lWifiApStop D level

theorem step_event (s : Wifi δ) (c : WifiCall) :
    s.step D c.event = (s.perform D c).map Prod.fst := by
  cases c <;> rfl

/-- The calls that are to be refused; without a first argument the mode is 1 and
the level 0. -/
def Refused (s : Wifi δ) : WifiCall → Prop
  | .mode m => m.getD 1 ≠ 1 ∧ m.getD 1 ≠ 2 ∧ m.getD 1 ≠ 3
  | .staStop level | .apStop level =>
    s.wifiInit = false ∨ level.getD 0 ≠ 0 ∧ level.getD 0 ≠ 1

/-- A Lua error, and everything is as before. -/
structure RefusedCleanly (s : Wifi δ) (c : WifiCall) : Prop where
  answer : ∃ s' msg, s.perform D c = some (s', .error msg) ∧ s'.wifiInit = s.wifiInit ∧
    s'.staNetif = s.staNetif ∧ s'.apNetif = s.apNetif ∧ s'.driver = s.driver

/-- What the code sees of a call that it refuses without doing anything. -/
def Noticed (s : Wifi δ) : WifiCall → Prop
  | .mode m => s.wifiInit = true ∧ WifiMode.ofInt (toInt (m.getD 1)) = none
  | .staStop level | .apStop level =>
    s.wifiInit = false ∨ toUint8 (level.getD 0) ≠ 0 ∧ toUint8 (level.getD 0) ≠ 1

variable {D}

theorem perform_of_noticed {s : Wifi δ} {c : WifiCall} (h : s.Noticed c) :
    ∃ msg, s.perform D c = some (s, .error msg) := by
  cases c with
  | mode m =>
    obtain ⟨hup, hmode⟩ := h
    refine ⟨"invalid wifi mode", ?_⟩
    simp [perform, lWifiMode, ensureInit, hup, hmode]
  | staStop level =>
    rcases h with hdown | ⟨h0, h1⟩
    · exact ⟨"WiFi not initialized", if_pos hdown⟩
    · cases hup : s.wifiInit with
      | false => exact ⟨"WiFi not initialized", if_pos hup⟩
      | true =>
        refine ⟨"Invalid level: use 0=stop, 1=delete", ?_⟩
        simp [perform, lWifiStaStop, hup, h0, h1]
  | apStop level =>
    rcases h with hdown | ⟨h0, h1⟩
    · exact ⟨"WiFi not initialized", if_pos hdown⟩
    · cases hup : s.wifiInit with
      | false => exact ⟨"WiFi not initialized", if_pos hup⟩
      | true =>
        refine ⟨"Invalid level: use 0=stop, 1=delete", ?_⟩
        simp [perform, lWifiApStop, hup, h0, h1]

/-- An error of `wifi.mode` leaves the library initialised. -/
theorem lWifiMode_error {s s' : Wifi δ} {m : Option Int} {msg : String}
    (h : s.lWifiMode D m = some (s', .error msg)) :
    s'.wifiInit = true ∧ WifiMode.ofInt (toInt (m.getD 1)) = none := by
  obtain ⟨s₁, h₁, h⟩ := Option.bind_eq_some_iff.mp h
  have hup : s₁.wifiInit = true := by
    unfold ensureInit at h₁
    split at h₁
    · next hup => exact Option.some.inj h₁ ▸ hup
    · obtain ⟨s₂, -, rfl⟩ := Option.map_eq_some_iff.mp h₁
      rfl
  cases hmode : WifiMode.ofInt (toInt (m.getD 1)) with
  | none =>
    simp only [hmode] at h
    cases h
    exact ⟨hup, rfl⟩
  | some mode =>
    simp only [hmode] at h
    obtain ⟨s₂, -, h⟩ := Option.bind_eq_some_iff.mp h
    obtain ⟨s₃, -, h⟩ := Option.map_eq_some_iff.mp h
    cases h

theorem lWifiStaStop_error {s s' : Wifi δ} {level : Option Int} {msg : String}
    (h : s.lWifiStaStop D level = some (s', .error msg)) : s.Noticed (.staStop level) := by
  unfold lWifiStaStop at h
  split at h
  · next hdown => exact Or.inl hdown
  · split at h
    · obtain ⟨s₁, -, h⟩ := Option.bind_eq_some_iff.mp h
      obtain ⟨s₂, -, h⟩ := Option.map_eq_some_iff.mp h
      cases h
    · next h0 =>
      split at h
      · cases h
      · next h1 => exact Or.inr ⟨h0, h1⟩

theorem lWifiApStop_error {s s' : Wifi δ} {level : Option Int} {msg : String}
    (h : s.lWifiApStop D level = some (s', .error msg)) : s.Noticed (.apStop level) := by
  unfold lWifiApStop at h
  split at h
  · next hdown => exact Or.inl hdown
  · split at h
    · obtain ⟨s₁, -, h⟩ := Option.map_eq_some_iff.mp h
      cases h
    · next h0 =>
      split at h
      · cases h
      · next h1 => exact Or.inr ⟨h0, h1⟩

theorem refusedCleanly_iff (s : Wifi δ) (c : WifiCall) : s.RefusedCleanly D c ↔ s.Noticed c := by
  constructor
  · rintro ⟨s', msg, h, hinit, -⟩
    cases c with
    | mode m =>
      obtain ⟨hup, hmode⟩ := lWifiMode_error h
      exact ⟨hinit ▸ hup, hmode⟩
    | staStop level => exact lWifiStaStop_error h
    | apStop level => exact lWifiApStop_error h
  · intro h
    obtain ⟨msg, hs⟩ := perform_of_noticed (D := D) h
    exact ⟨s, msg, hs, rfl, rfl, rfl, rfl⟩

end Wifi

/-- The calls that a run makes, each in the state it finds. -/
def CallsIn {δ ε : Type} (D : WifiDriver δ ε) (es : List (WifiEvent ε))
    (P : Wifi δ → WifiCall → Prop) : Prop :=
  ∀ l s c, l ++ [c.event] <+: es → (wifi D).run l = some s → P s c

/-- **Refusals.**  The calls to be refused are refused cleanly in exactly the runs
where the code notices them: an invalid mode after initialisation only, and every
argument by its low bits. -/
theorem wifi_refusals_iff {δ ε : Type} (D : WifiDriver δ ε) (es : List (WifiEvent ε)) :
    CallsIn D es (fun s c => s.Refused c → s.RefusedCleanly D c) ↔
      CallsIn D es fun s c => s.Refused c → s.Noticed c := by
  unfold CallsIn
  simp only [Wifi.refusedCleanly_iff]

/-- `wifi.mode(5)` before anything else: the error comes after the initialisation. -/
theorem bad_mode_initialises : ¬ ∀ es, CallsIn (EspWifi.driver (some .sta)) es
    fun s c => s.Refused c → s.RefusedCleanly (EspWifi.driver (some .sta)) c := by
  intro h
  have hclean := h [.mode (some 5)] [] _ (.mode (some 5)) List.prefix_rfl rfl
    ⟨by decide, by decide, by decide⟩
  obtain ⟨s', msg, hs, hinit, -⟩ := hclean
  cases hs
  cases hinit

end CLIos
