import CLIos.Net.WifiInterfaces

/-!
# When a Wi-Fi call ends the firmware

The driver as far as its answers matter.  A call other than `init` and `deinit`
needs an initialised driver; `connect` and `disconnect` also need one that is
started in a mode with a station, and `set_config` an interface that the mode
has and no connection attempt under way.  An attempt begins with `connect` and
ends by itself, with `disconnect`, when the driver stops, or when the mode loses
its station.

The library tests `wifi_init` before it stops, but not before it starts.
-/

namespace CLIos

open LuaApi Runs

structure EspWifi where
  inited : Bool
  /-- `none` is `WIFI_MODE_NULL` -/
  mode : Option WifiMode
  started : Bool
  connecting : Bool
deriving DecidableEq

namespace EspWifi

def hasSta (d : EspWifi) : Bool := d.mode.any WifiMode.hasSta

def hasAp (d : EspWifi) : Bool := d.mode.any WifiMode.hasAp

/-- The interface of a configuration is enabled. -/
def enables (d : EspWifi) : WifiConfig → Bool
  | .sta _ _ => d.hasSta
  | .ap _ _ _ _ _ => d.hasAp

/-- `allowed`, and then the state after it. -/
def answer (d d' : EspWifi) (allowed : Bool) : EspWifi × Bool :=
  if allowed then (d', true) else (d, false)

/-- `mode` is the mode the driver has after `esp_wifi_init`. -/
def call (mode : Option WifiMode) (c : DriverCall) (d : EspWifi) : EspWifi × Bool :=
  match c with
  | .init => (⟨true, mode, false, false⟩, true)
  | .deinit => (⟨false, none, false, false⟩, true)
  | .setMode m => d.answer { d with mode := some m, connecting := d.connecting && m.hasSta } d.inited
  | .start => d.answer { d with started := true } d.inited
  | .stop => d.answer { d with started := false, connecting := false } d.inited
  | .setConfig cfg => d.answer d (d.inited && d.enables cfg && !d.connecting)
  | .connect => d.answer { d with connecting := true } (d.inited && d.started && d.hasSta)
  | .disconnect => d.answer { d with connecting := false } (d.inited && d.started && d.hasSta)

/-- The event is the end of the connection attempt. -/
def driver (mode : Option WifiMode) : WifiDriver EspWifi Unit where
  init := ⟨false, none, false, false⟩
  call := call mode
  event _ d := { d with connecting := false }

end EspWifi

namespace Wifi

/-- The calls that do not end the firmware.  `wifi.mode`, `wifi.ap.stop` and a
stop with a level other than 0 never do. -/
def Allowed (s : Wifi EspWifi) : WifiEvent Unit → Prop
  | .staStart _ _ => s.driver.inited = true ∧ s.driver.started = true ∧ s.driver.hasSta = true ∧
      s.driver.connecting = false
  | .apStart _ _ _ => s.driver.inited = true ∧ s.driver.hasAp = true ∧ s.driver.connecting = false
  | .staStop level => toUint8 (level.getD 0) = 0 → s.wifiInit = true →
      s.driver.started = true ∧ s.driver.hasSta = true
  | _ => True

/-- `wifi_init` tells whether the driver is initialised. -/
def Matches (s : Wifi EspWifi) : Prop := s.wifiInit = s.driver.inited

variable {mode : Option WifiMode}

/-! ## One check -/

/-- Only `init` and `deinit` change whether the driver is initialised. -/
theorem call_inited {c : DriverCall} (d : EspWifi) (hi : c ≠ .init) (hd : c ≠ .deinit) :
    (EspWifi.call mode c d).1.inited = d.inited := by
  have hanswer : ∀ (d' : EspWifi) (allowed : Bool), d'.inited = d.inited →
      (d.answer d' allowed).1.inited = d.inited := by
    intro d' allowed h
    unfold EspWifi.answer
    split
    · exact h
    · rfl
  cases c with
  | init => exact absurd rfl hi
  | deinit => exact absurd rfl hd
  | _ => exact hanswer _ _ rfl

@[simp] theorem answer_ok (d d' : EspWifi) (allowed : Bool) :
    (d.answer d' allowed).2 = allowed := by
  cases allowed <;> rfl

/-- A call that does nothing but answer. -/
theorem answer_self (d : EspWifi) (allowed : Bool) : (d.answer d allowed).1 = d := by
  cases allowed <;> rfl

theorem Matches.drive {s : Wifi EspWifi} (h : s.Matches) {c : DriverCall} (hi : c ≠ .init)
    (hd : c ≠ .deinit) : (s.drive (EspWifi.driver mode) c).Matches := by
  show s.wifiInit = (EspWifi.call mode c s.driver).1.inited
  rw [call_inited s.driver hi hd]
  exact h

theorem Matches.check {s s' : Wifi EspWifi} (h : s.Matches) {c : DriverCall} (hi : c ≠ .init)
    (hd : c ≠ .deinit) (hs : s.check (EspWifi.driver mode) c = some s') : s'.Matches := by
  obtain ⟨-, rfl⟩ := check_eq_some hs
  exact h.drive hi hd

theorem check_of_ok {s : Wifi EspWifi} {c : DriverCall}
    (h : (EspWifi.call mode c s.driver).2 = true) :
    s.check (EspWifi.driver mode) c = some (s.drive (EspWifi.driver mode) c) := if_pos h

/-- One check, and what follows it. -/
theorem check_isSome_iff {α : Type} {s : Wifi EspWifi} {c : DriverCall} {f : Wifi EspWifi → α} :
    (∃ r, (s.check (EspWifi.driver mode) c).map f = some r) ↔
      (EspWifi.call mode c s.driver).2 = true := by
  constructor
  · rintro ⟨r, h⟩
    obtain ⟨s', hs, -⟩ := Option.map_eq_some_iff.mp h
    exact (check_eq_some hs).1
  · intro h
    rw [check_of_ok h]
    exact ⟨_, rfl⟩

theorem checks_isSome_iff {α : Type} {s : Wifi EspWifi} {c c' : DriverCall}
    {f : Wifi EspWifi → α} :
    (∃ r, ((s.check (EspWifi.driver mode) c).bind fun s =>
      (s.check (EspWifi.driver mode) c').map f) = some r) ↔
      (EspWifi.call mode c s.driver).2 = true ∧
        (EspWifi.call mode c' (EspWifi.call mode c s.driver).1).2 = true := by
  constructor
  · rintro ⟨r, h⟩
    obtain ⟨s', hs, h⟩ := Option.bind_eq_some_iff.mp h
    obtain ⟨hok, rfl⟩ := check_eq_some hs
    exact ⟨hok, check_isSome_iff.mp ⟨r, h⟩⟩
  · rintro ⟨h, h'⟩
    rw [check_of_ok h, Option.bind_some]
    exact check_isSome_iff.mpr h'

/-! ## The calls -/

/-- `wifi_init` and the driver go up together. -/
theorem Matches.ensureInit {s : Wifi EspWifi} (h : s.Matches) (mode : Option WifiMode) :
    ∃ s', s.ensureInit (EspWifi.driver mode) = some s' ∧ s'.Matches ∧ s'.driver.inited = true := by
  unfold Wifi.ensureInit
  split
  · next hup =>
    have h : s.wifiInit = s.driver.inited := h
    exact ⟨s, rfl, h, by rw [← h, hup]⟩
  · rw [check_of_ok rfl]
    exact ⟨_, rfl, rfl, rfl⟩

theorem Matches.needNetifs {s : Wifi EspWifi} (h : s.Matches) (m : WifiMode) :
    (s.needNetifs m).Matches ∧ (s.needNetifs m).driver = s.driver := by
  have hset : ∀ (s : Wifi EspWifi) (kind : NetifKind) (x : Option Nat),
      (s.setNetif kind x).driver = s.driver := by
    intro s kind x
    cases kind <;> rfl
  have hneed : ∀ (s : Wifi EspWifi) (kind : NetifKind), (s.needNetif kind).driver = s.driver := by
    intro s kind
    unfold needNetif
    split
    · rw [hset]
    · rfl
  have hdriver : (s.needNetifs m).driver = s.driver := by
    cases m <;> simp only [Wifi.needNetifs, hneed]
  refine ⟨?_, hdriver⟩
  unfold Matches
  rw [needNetifs_wifiInit, hdriver]
  exact h

/-- `wifi.mode` always finds the driver ready. -/
theorem Matches.lWifiMode {s : Wifi EspWifi} (h : s.Matches) (mode : Option WifiMode)
    (m : Option Int) :
    ∃ r, s.lWifiMode (EspWifi.driver mode) m = some r ∧ r.1.Matches := by
  obtain ⟨s₁, hs₁, h₁, hup⟩ := h.ensureInit mode
  unfold Wifi.lWifiMode
  rw [hs₁, Option.bind_some]
  cases WifiMode.ofInt (toInt (m.getD 1)) with
  | none => exact ⟨_, rfl, h₁⟩
  | some m =>
    obtain ⟨h₂, hdriver⟩ := h₁.needNetifs m
    have hok : (EspWifi.call mode (.setMode m) (s₁.needNetifs m).driver).2 = true := by
      rw [hdriver]
      exact (answer_ok _ _ _).trans hup
    have h₃ : ((s₁.needNetifs m).drive (EspWifi.driver mode) (.setMode m)).Matches :=
      h₂.drive (by simp) (by simp)
    have hok' : (EspWifi.call mode .start
        ((s₁.needNetifs m).drive (EspWifi.driver mode) (.setMode m)).driver).2 = true := by
      refine (answer_ok _ _ _).trans ?_
      rw [← h₃]
      show (s₁.needNetifs m).wifiInit = true
      rw [h₂, hdriver, hup]
    simp only [check_of_ok hok, Option.bind_some, check_of_ok hok', Option.map_some]
    exact ⟨_, rfl, h₃.drive (by simp) (by simp)⟩

theorem Matches.dropIf {s : Wifi EspWifi} (h : s.Matches) (p : Bool) (kind : NetifKind) :
    (if p then s.dropNetif kind else s).Matches := by
  split
  · cases kind <;> exact h
  · exact h

theorem Matches.wifiDeinit {s : Wifi EspWifi} (h : s.Matches) :
    (s.wifiDeinit (EspWifi.driver mode)).Matches := by
  have hdriver : ∀ (s : Wifi EspWifi) (p : Bool) (kind : NetifKind),
      (if p then s.dropNetif kind else s).driver = s.driver := by
    intro s p kind
    cases p <;> cases kind <;> rfl
  unfold Wifi.wifiDeinit
  split
  · show false = EspWifi.inited _
    simp only [hdriver]
    rfl
  · exact h

theorem Matches.step {s s' : Wifi EspWifi} {e : WifiEvent Unit} (h : s.Matches)
    (hs : s.step (EspWifi.driver mode) e = some s') : s'.Matches := by
  cases e with
  | mode m =>
    obtain ⟨r, hr, rfl⟩ := Option.map_eq_some_iff.mp hs
    obtain ⟨r', hr', hm⟩ := h.lWifiMode mode m
    obtain rfl : r = r' := Option.some.inj (hr.symm.trans hr')
    exact hm
  | staStart ssid pass =>
    obtain ⟨r, hr, rfl⟩ := Option.map_eq_some_iff.mp hs
    obtain ⟨s₁, h₁, hr⟩ := Option.bind_eq_some_iff.mp hr
    obtain ⟨s₂, h₂, rfl⟩ := Option.map_eq_some_iff.mp hr
    exact (h.check (by simp) (by simp) h₁).check (by simp) (by simp) h₂
  | staStop level =>
    obtain ⟨r, hr, rfl⟩ := Option.map_eq_some_iff.mp hs
    obtain hr | hr | ⟨-, -, hr⟩ := lWifiStaStop_cases hr <;> rw [hr]
    · exact h
    · exact (h.drive (by simp) (by simp)).drive (by simp) (by simp)
    · exact (h.dropIf s.staNetif.isSome .sta).wifiDeinit
  | apStart ssid pass channel =>
    obtain ⟨r, hr, rfl⟩ := Option.map_eq_some_iff.mp hs
    obtain ⟨s₁, h₁, rfl⟩ := Option.map_eq_some_iff.mp hr
    exact h.check (by simp) (by simp) h₁
  | apStop level =>
    obtain ⟨r, hr, rfl⟩ := Option.map_eq_some_iff.mp hs
    obtain hr | hr | ⟨-, -, hr⟩ := lWifiApStop_cases hr <;> rw [hr]
    · exact h
    · exact h.drive (by simp) (by simp)
    · exact (h.dropIf s.apNetif.isSome .sta).wifiDeinit
  | staDisconnected =>
    cases hs
    exact h.drive (by simp) (by simp)
  | driver e =>
    cases hs
    exact h

/-- With level 0 a station is disconnected first, which needs one that is started. -/
theorem Matches.staStop_isSome_iff {s : Wifi EspWifi} (h : s.Matches) (mode : Option WifiMode)
    (level : Option Int) : (∃ r, s.lWifiStaStop (EspWifi.driver mode) level = some r) ↔
      s.Allowed (.staStop level) := by
  show _ ↔ (toUint8 (level.getD 0) = 0 → s.wifiInit = true → _)
  unfold lWifiStaStop
  split
  · next hdown => simp [hdown]
  · next hup =>
    have hup : s.wifiInit = true := by simpa using hup
    split
    · next hlevel =>
      refine checks_isSome_iff.trans ?_
      have hinited : s.driver.inited = true := by
        rw [← hup]
        exact h.symm
      have hstop : (EspWifi.call mode .stop (EspWifi.call mode .disconnect s.driver).1).2 =
          s.driver.inited :=
        (answer_ok _ _ _).trans (call_inited s.driver (by simp) (by simp))
      rw [hstop, hinited]
      show (EspWifi.answer _ _ _).2 = true ∧ true = true ↔ _
      simp [hinited, hlevel, hup]
    · next hlevel => split <;> simp [hlevel]

/-- An access point is stopped without a check that depends on the mode. -/
theorem Matches.apStop_isSome {s : Wifi EspWifi} (h : s.Matches) (mode : Option WifiMode)
    (level : Option Int) : ∃ r, s.lWifiApStop (EspWifi.driver mode) level = some r := by
  unfold lWifiApStop
  split
  · exact ⟨_, rfl⟩
  · next hup =>
    have hinited : s.driver.inited = true := by
      rw [← h]
      simpa using hup
    split
    · exact check_isSome_iff.mpr ((answer_ok _ _ _).trans hinited)
    · split <;> exact ⟨_, rfl⟩

/-- Every event has a next state exactly where it is allowed. -/
theorem Matches.step_isSome_iff {s : Wifi EspWifi} (h : s.Matches) (mode : Option WifiMode)
    (e : WifiEvent Unit) :
    (∃ s', s.step (EspWifi.driver mode) e = some s') ↔ s.Allowed e := by
  have hfst : ∀ {x : Option (Wifi EspWifi × WifiAnswer)},
      (∃ s', x.map Prod.fst = some s') ↔ ∃ r, x = some r := by
    intro x
    cases x <;> simp
  cases e with
  | mode m =>
    refine hfst.trans (iff_of_true ?_ trivial)
    obtain ⟨r, hr, -⟩ := h.lWifiMode mode m
    exact ⟨r, hr⟩
  | staStart ssid pass =>
    refine hfst.trans (checks_isSome_iff.trans ?_)
    show (EspWifi.answer _ _ _).2 = true ∧ (EspWifi.answer _ _ _).2 = true ↔ _
    simp only [answer_ok, EspWifi.call, answer_self, EspWifi.enables, staConfig, Allowed,
      Bool.and_eq_true, Bool.not_eq_true']
    tauto
  | staStop level => exact hfst.trans (h.staStop_isSome_iff mode level)
  | apStart ssid pass channel =>
    refine hfst.trans (check_isSome_iff.trans ?_)
    show (EspWifi.answer _ _ _).2 = true ↔ _
    simp only [answer_ok, EspWifi.enables, apConfig, Allowed, Bool.and_eq_true, Bool.not_eq_true']
    tauto
  | apStop level => exact hfst.trans (iff_of_true (h.apStop_isSome mode level) trivial)
  | staDisconnected => exact iff_of_true ⟨_, rfl⟩ trivial
  | driver e => exact iff_of_true ⟨_, rfl⟩ trivial

end Wifi

/-- **Aborts.**  No check of the library ends the firmware in exactly the runs
that start a station or an access point, and stop a station with level 0, only
where the driver is ready for it. -/
theorem wifi_never_aborts_iff (mode : Option WifiMode) (es : List (WifiEvent Unit)) :
    (wifi (EspWifi.driver mode)).Throughout (fun _ _ => True) es ↔
      ∀ l e, l ++ [e] <+: es → ∀ s, (wifi (EspWifi.driver mode)).run l = some s → s.Allowed e := by
  apply Machine.throughout_iff (I := fun _ s => s.Matches)
  · rfl
  · exact fun _ _ _ => trivial
  · intro l s e hs hm hq
    obtain ⟨s', hs'⟩ := (hm.step_isSome_iff mode e).mpr (hq s hs)
    exact ⟨s', hs', hm.step hs'⟩
  · intro l s e s' hs hm hs' _ t ht
    obtain rfl : s = t := Option.some.inj (hs.symm.trans ht)
    exact (hm.step_isSome_iff mode e).mp ⟨s', hs'⟩

/-- A station started before `wifi.mode`. -/
theorem sta_start_first_aborts :
    ¬ ∀ es, (wifi (EspWifi.driver (some .sta))).Throughout (fun _ _ => True) es := by
  intro h
  obtain ⟨s, hs, -⟩ := h [.staStart [97] none] _ List.prefix_rfl
  cases hs

end CLIos
