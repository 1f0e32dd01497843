import CLIos.Net.Wifi

/-!
# The interfaces of the Wi-Fi library

Whatever the driver answers, the two pointers are the two interfaces that
exist: they are set where an interface is created and cleared where it is
destroyed, and the library is never left with an interface after its teardown.
-/

namespace CLIos

open LuaApi Runs

namespace Wifi

variable {δ ε : Type}

/-- The pointers and the interfaces: each pointer is the one live interface of
its kind, or NULL if there is none. -/
structure Booked (s : Wifi δ) : Prop where
  live : ∀ kind i, (∃ n, s.netifs[i]? = some n ∧ n.kind = kind ∧ n.destroyed = 0) ↔
    s.netif kind = some i
  once : ∀ n ∈ s.netifs, n.destroyed ≤ 1

/-- The bookkeeping of the library. -/
structure WellKept (s : Wifi δ) : Prop extends Booked s where
  down : s.wifiInit = false → s.staNetif = none ∧ s.apNetif = none

/-! ## What the helpers do -/

@[simp] theorem netif_setNetif (s : Wifi δ) (kind kind' : NetifKind) (x : Option Nat) :
    (s.setNetif kind x).netif kind' = if kind' = kind then x else s.netif kind' := by
  cases kind <;> cases kind' <;> rfl

@[simp] theorem netifs_setNetif (s : Wifi δ) (kind : NetifKind) (x : Option Nat) :
    (s.setNetif kind x).netifs = s.netifs := by
  cases kind <;> rfl

@[simp] theorem wifiInit_setNetif (s : Wifi δ) (kind : NetifKind) (x : Option Nat) :
    (s.setNetif kind x).wifiInit = s.wifiInit := by
  cases kind <;> rfl

theorem needNetif_wifiInit (s : Wifi δ) (kind : NetifKind) :
    (s.needNetif kind).wifiInit = s.wifiInit := by
  unfold needNetif
  split <;> simp

theorem dropNetif_wifiInit (s : Wifi δ) (kind : NetifKind) :
    (s.dropNetif kind).wifiInit = s.wifiInit := by
  simp [dropNetif, destroyNetif]

theorem dropNetif_netif (s : Wifi δ) (kind kind' : NetifKind) :
    (s.dropNetif kind).netif kind' = if kind' = kind then none else s.netif kind' := by
  unfold dropNetif
  rw [netif_setNetif]
  cases kind' <;> rfl

/-- Two pointers are never the same interface. -/
theorem Booked.kind_unique {s : Wifi δ} (h : s.Booked) {i : Nat} {kind kind' : NetifKind}
    (hi : s.netif kind = some i) (hi' : s.netif kind' = some i) : kind = kind' := by
  obtain ⟨n, hn, rfl, -⟩ := (h.live kind i).mpr hi
  obtain ⟨n', hn', rfl, -⟩ := (h.live kind' i).mpr hi'
  rw [Option.some.inj (hn.symm.trans hn')]

theorem Booked.needNetif {s : Wifi δ} (h : s.Booked) (kind : NetifKind) :
    (s.needNetif kind).Booked := by
  unfold Wifi.needNetif
  split
  · next hnone =>
    refine ⟨fun kind' i => ?_, fun n hn => ?_⟩
    · rw [netif_setNetif, netifs_setNetif]
      show (∃ n, (s.netifs ++ [⟨kind, 0⟩])[i]? = some n ∧ _) ↔
        (if kind' = kind then some s.netifs.length else s.netif kind') = some i
      by_cases hi : i < s.netifs.length
      · -- an old interface: the new one's kind had none before
        rw [List.getElem?_append_left hi, h.live kind' i]
        by_cases hk : kind' = kind
        · subst hk
          rw [if_pos rfl, hnone]
          simp
          omega
        · rw [if_neg hk]
      · constructor
        · rintro ⟨n, hn, hk, -⟩
          have hlt := (List.getElem?_eq_some_iff.mp hn).1
          rw [List.length_append, List.length_singleton] at hlt
          obtain rfl : i = s.netifs.length := by omega
          rw [List.getElem?_concat_length] at hn
          rw [if_pos (by rw [← hk, ← Option.some.inj hn])]
        · intro hp
          by_cases hk : kind' = kind
          · subst hk
            rw [if_pos rfl, Option.some_inj] at hp
            subst hp
            exact ⟨_, List.getElem?_concat_length, rfl, rfl⟩
          · rw [if_neg hk] at hp
            obtain ⟨n, hn, -⟩ := (h.live kind' i).mpr hp
            exact absurd (List.getElem?_eq_some_iff.mp hn).1 hi
    · rw [netifs_setNetif] at hn
      rcases List.mem_append.mp hn with hn | hn
      · exact h.once n hn
      · rw [List.mem_singleton.mp hn]
        exact Nat.zero_le 1
  · exact h

/-- The interface that a pointer names is destroyed and the pointer cleared. -/
theorem Booked.dropNetif {s : Wifi δ} (h : s.Booked) (kind : NetifKind) :
    (s.dropNetif kind).Booked := by
  cases hp : s.netif kind with
  | none =>
    -- nothing is destroyed, and the pointer was NULL before
    have hsame : ∀ kind', (s.dropNetif kind).netif kind' = s.netif kind' := by
      intro kind'
      rw [dropNetif_netif]
      split
      · next hk => rw [hk, hp]
      · rfl
    have hnetifs : (s.dropNetif kind).netifs = s.netifs := by
      rw [Wifi.dropNetif, hp, netifs_setNetif]
      rfl
    refine ⟨fun kind' i => ?_, ?_⟩
    · rw [hnetifs, hsame]
      exact h.live kind' i
    · rw [hnetifs]
      exact h.once
  | some j =>
    have hnetifs : (s.dropNetif kind).netifs =
        s.netifs.modify j fun n => { n with destroyed := n.destroyed + 1 } := by
      rw [Wifi.dropNetif, hp, netifs_setNetif]
      rfl
    obtain ⟨m, hm, hmk, hm0⟩ := (h.live kind j).mpr hp
    refine ⟨fun kind' i => ?_, fun n hn => ?_⟩
    · rw [hnetifs, dropNetif_netif]
      by_cases hij : j = i
      · subst hij
        refine iff_of_false ?_ ?_
        · rw [List.getElem?_modify_eq, hm]
          rintro ⟨n, hn, -, h0⟩
          cases hn
          cases h0
        · split
          · simp
          · next hk => exact fun hp' => hk (h.kind_unique hp' hp)
      · rw [List.getElem?_modify_ne _ _ hij, h.live kind' i]
        split
        · next hk =>
          rw [hk, hp]
          simp [hij]
        · rfl
    · rw [hnetifs] at hn
      obtain ⟨i, hi⟩ := List.mem_iff_getElem?.mp hn
      by_cases hij : j = i
      · subst hij
        rw [List.getElem?_modify_eq, hm] at hi
        cases hi
        show m.destroyed + 1 ≤ 1
        omega
      · rw [List.getElem?_modify_ne _ _ hij] at hi
        exact h.once n (List.mem_of_getElem? hi)

theorem Booked.needNetifs {s : Wifi δ} (h : s.Booked) (m : WifiMode) : (s.needNetifs m).Booked := by
  cases m with
  | sta => exact h.needNetif .sta
  | ap => exact h.needNetif .ap
  | apsta => exact (h.needNetif .sta).needNetif .ap

theorem needNetifs_wifiInit (s : Wifi δ) (m : WifiMode) :
    (s.needNetifs m).wifiInit = s.wifiInit := by
  cases m <;> simp only [needNetifs, needNetif_wifiInit]

/-- `if (netif) { .. }`: the test makes no difference to the interfaces. -/
theorem Booked.dropIf {s : Wifi δ} (h : s.Booked) (p : Bool) (kind : NetifKind) :
    (if p then s.dropNetif kind else s).Booked := by
  split
  · exact h.dropNetif kind
  · exact h

theorem netif_dropIf (s : Wifi δ) (kind : NetifKind) :
    (if (s.netif kind).isSome then s.dropNetif kind else s).netif kind = none := by
  split
  · rw [dropNetif_netif, if_pos rfl]
  · next hnone => simpa using hnone

/-- Clearing one pointer leaves the other NULL if it was. -/
theorem netif_dropIf_none {s : Wifi δ} {p : Bool} {kind kind' : NetifKind}
    (h : s.netif kind' = none) : (if p then s.dropNetif kind else s).netif kind' = none := by
  split
  · rw [dropNetif_netif]
    split
    · rfl
    · exact h
  · exact h

theorem Booked.drive {D : WifiDriver δ ε} {s : Wifi δ} (h : s.Booked) (c : DriverCall) :
    (s.drive D c).Booked := ⟨h.live, h.once⟩

/-- Whatever `wifi_deinit` is called on, it leaves no interface. -/
theorem Booked.wifiDeinit {D : WifiDriver δ ε} {s : Wifi δ} (h : s.Booked)
    (hup : s.wifiInit = true) : (s.wifiDeinit D).WellKept := by
  unfold Wifi.wifiDeinit
  rw [if_pos hup]
  have hkept := (((h.drive (D := D) .stop).drive (D := D) .deinit).dropIf
    s.staNetif.isSome .sta).dropIf
  refine ⟨⟨(hkept _ .ap).live, (hkept _ .ap).once⟩, fun _ => ⟨?_, ?_⟩⟩
  · have hsta := netif_dropIf ((s.drive D .stop).drive D .deinit) .sta
    exact netif_dropIf_none hsta
  · exact netif_dropIf _ .ap

/-! ## The calls -/

theorem WellKept.drive {D : WifiDriver δ ε} {s : Wifi δ} (h : s.WellKept) (c : DriverCall) :
    (s.drive D c).WellKept := ⟨h.toBooked.drive c, h.down⟩

theorem WellKept.check {D : WifiDriver δ ε} {s s' : Wifi δ} {c : DriverCall} (h : s.WellKept)
    (hs : s.check D c = some s') : s'.WellKept := by
  obtain ⟨-, rfl⟩ := check_eq_some hs
  exact h.drive c

theorem Booked.up {s : Wifi δ} (h : s.Booked) (hup : s.wifiInit = true) : s.WellKept :=
  ⟨h, fun hdown => by rw [hup] at hdown; cases hdown⟩

theorem ensureInit_spec {D : WifiDriver δ ε} {s s' : Wifi δ} (hs : s.ensureInit D = some s') :
    s'.wifiInit = true ∧ (s.Booked → s'.Booked) := by
  unfold ensureInit at hs
  split at hs
  · next hup =>
    cases hs
    exact ⟨hup, id⟩
  · obtain ⟨s₁, hc, rfl⟩ := Option.map_eq_some_iff.mp hs
    obtain ⟨-, rfl⟩ := check_eq_some hc
    exact ⟨rfl, fun h => ⟨h.live, h.once⟩⟩

/-- What the calls do to the state, if they are got through. -/
theorem lWifiMode_cases {D : WifiDriver δ ε} {s : Wifi δ} {mode : Option Int}
    {r : Wifi δ × WifiAnswer} (hr : s.lWifiMode D mode = some r) :
    ∃ s₁, s.ensureInit D = some s₁ ∧
      (r.1 = s₁ ∨ ∃ m, r.1 = ((s₁.needNetifs m).drive D (.setMode m)).drive D .start) := by
  obtain ⟨s₁, h₁, hr⟩ := Option.bind_eq_some_iff.mp hr
  refine ⟨s₁, h₁, ?_⟩
  split at hr
  · cases hr
    exact Or.inl rfl
  · next m _ =>
    obtain ⟨s₂, h₂, hr⟩ := Option.bind_eq_some_iff.mp hr
    obtain ⟨s₃, h₃, rfl⟩ := Option.map_eq_some_iff.mp hr
    obtain ⟨-, rfl⟩ := check_eq_some h₂
    obtain ⟨-, rfl⟩ := check_eq_some h₃
    exact Or.inr ⟨m, rfl⟩

theorem lWifiStaStop_cases {D : WifiDriver δ ε} {s : Wifi δ} {level : Option Int}
    {r : Wifi δ × WifiAnswer} (hr : s.lWifiStaStop D level = some r) :
    r.1 = s ∨ r.1 = (s.drive D .disconnect).drive D .stop ∨
      s.wifiInit = true ∧ toUint8 (level.getD 0) = 1 ∧
        r.1 = (if s.staNetif.isSome then s.dropNetif .sta else s).wifiDeinit D := by
  unfold lWifiStaStop at hr
  split at hr
  · cases hr
    exact Or.inl rfl
  · next hup =>
    split at hr
    · obtain ⟨s₁, h₁, hr⟩ := Option.bind_eq_some_iff.mp hr
      obtain ⟨s₂, h₂, rfl⟩ := Option.map_eq_some_iff.mp hr
      obtain ⟨-, rfl⟩ := check_eq_some h₁
      obtain ⟨-, rfl⟩ := check_eq_some h₂
      exact Or.inr (Or.inl rfl)
    · split at hr <;> cases hr
      · next hlevel => exact Or.inr (Or.inr ⟨by simpa using hup, hlevel, rfl⟩)
      · exact Or.inl rfl

theorem lWifiApStop_cases {D : WifiDriver δ ε} {s : Wifi δ} {level : Option Int}
    {r : Wifi δ × WifiAnswer} (hr : s.lWifiApStop D level = some r) :
    r.1 = s ∨ r.1 = s.drive D .stop ∨
      s.wifiInit = true ∧ toUint8 (level.getD 0) = 1 ∧
        r.1 = (if s.apNetif.isSome then s.dropNetif .sta else s).wifiDeinit D := by
  unfold lWifiApStop at hr
  split at hr
  · cases hr
    exact Or.inl rfl
  · next hup =>
    split at hr
    · obtain ⟨s₁, h₁, rfl⟩ := Option.map_eq_some_iff.mp hr
      obtain ⟨-, rfl⟩ := check_eq_some h₁
      exact Or.inr (Or.inl rfl)
    · split at hr <;> cases hr
      · next hlevel => exact Or.inr (Or.inr ⟨by simpa using hup, hlevel, rfl⟩)
      · exact Or.inl rfl

theorem WellKept.lWifiMode {D : WifiDriver δ ε} {s : Wifi δ} {mode : Option Int}
    {r : Wifi δ × WifiAnswer} (h : s.WellKept) (hr : s.lWifiMode D mode = some r) :
    r.1.WellKept := by
  obtain ⟨s₁, h₁, hr⟩ := lWifiMode_cases hr
  obtain ⟨hup, hbooked⟩ := ensureInit_spec h₁
  have h₁ := hbooked h.toBooked
  obtain hr | ⟨m, hr⟩ := hr
  · rw [hr]
    exact h₁.up hup
  · have hneed : (s₁.needNetifs m).WellKept :=
      (h₁.needNetifs m).up (by rw [needNetifs_wifiInit, hup])
    rw [hr]
    exact (hneed.drive _).drive _

theorem WellKept.lWifiStaStart {D : WifiDriver δ ε} {s : Wifi δ} {ssid : TextFile.Bytes}
    {pass : Option TextFile.Bytes} {r : Wifi δ × WifiAnswer} (h : s.WellKept)
    (hr : s.lWifiStaStart D ssid pass = some r) : r.1.WellKept := by
  obtain ⟨s₁, h₁, hr⟩ := Option.bind_eq_some_iff.mp hr
  obtain ⟨s₂, h₂, rfl⟩ := Option.map_eq_some_iff.mp hr
  exact (h.check h₁).check h₂

theorem WellKept.lWifiApStart {D : WifiDriver δ ε} {s : Wifi δ} {ssid : TextFile.Bytes}
    {pass : Option TextFile.Bytes} {channel : Option Int} {r : Wifi δ × WifiAnswer}
    (h : s.WellKept) (hr : s.lWifiApStart D ssid pass channel = some r) : r.1.WellKept := by
  obtain ⟨s₁, h₁, rfl⟩ := Option.map_eq_some_iff.mp hr
  exact h.check h₁

/-- A stop with level 1, whichever pointer it tests. -/
theorem WellKept.stopDelete {s : Wifi δ} (h : s.WellKept) (D : WifiDriver δ ε)
    (hup : s.wifiInit = true) (p : Bool) :
    ((if p then s.dropNetif .sta else s).wifiDeinit D).WellKept := by
  apply (h.toBooked.dropIf p .sta).wifiDeinit
  split
  · rw [dropNetif_wifiInit, hup]
  · exact hup

theorem WellKept.lWifiStaStop {D : WifiDriver δ ε} {s : Wifi δ} {level : Option Int}
    {r : Wifi δ × WifiAnswer} (h : s.WellKept) (hr : s.lWifiStaStop D level = some r) :
    r.1.WellKept := by
  obtain hr | hr | ⟨hup, -, hr⟩ := lWifiStaStop_cases hr <;> rw [hr]
  · exact h
  · exact (h.drive _).drive _
  · exact h.stopDelete D hup _

theorem WellKept.lWifiApStop {D : WifiDriver δ ε} {s : Wifi δ} {level : Option Int}
    {r : Wifi δ × WifiAnswer} (h : s.WellKept) (hr : s.lWifiApStop D level = some r) :
    r.1.WellKept := by
  obtain hr | hr | ⟨hup, -, hr⟩ := lWifiApStop_cases hr <;> rw [hr]
  · exact h
  · exact h.drive _
  · exact h.stopDelete D hup _

theorem WellKept.step {D : WifiDriver δ ε} {s s' : Wifi δ} {e : WifiEvent ε} (h : s.WellKept)
    (hs : s.step D e = some s') : s'.WellKept := by
  cases e with
  | mode mode =>
    obtain ⟨r, hr, rfl⟩ := Option.map_eq_some_iff.mp hs
    exact h.lWifiMode hr
  | staStart ssid pass =>
    obtain ⟨r, hr, rfl⟩ := Option.map_eq_some_iff.mp hs
    exact h.lWifiStaStart hr
  | staStop level =>
    obtain ⟨r, hr, rfl⟩ := Option.map_eq_some_iff.mp hs
    exact h.lWifiStaStop hr
  | apStart ssid pass channel =>
    obtain ⟨r, hr, rfl⟩ := Option.map_eq_some_iff.mp hs
    exact h.lWifiApStart hr
  | apStop level =>
    obtain ⟨r, hr, rfl⟩ := Option.map_eq_some_iff.mp hs
    exact h.lWifiApStop hr
  | staDisconnected =>
    cases hs
    exact h.drive .connect
  | driver e =>
    cases hs
    exact ⟨⟨h.live, h.once⟩, h.down⟩

end Wifi

/-- **Interfaces.**  In every run, with any driver, each pointer is the one
interface of its kind that exists or NULL, no interface is destroyed twice, and
without an initialised driver there is none. -/
theorem wifi_wellKept {δ ε : Type} (D : WifiDriver δ ε) (es : List (WifiEvent ε)) :
    (wifi D).Always Wifi.WellKept es := by
  apply Machine.always_of_step
  · refine ⟨⟨fun kind i => ?_, by simp [wifi]⟩, fun _ => ⟨rfl, rfl⟩⟩
    cases kind <;> simp [wifi, Wifi.netif]
  · exact fun s e s' h hs => h.step hs

end CLIos
