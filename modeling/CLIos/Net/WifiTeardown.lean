import CLIos.Net.WifiAborts

/-!
# The order of the Wi-Fi teardown

`wifi_deinit` stops the driver, takes it down and then destroys the interfaces.
`wifi.sta.stop` and `wifi.ap.stop` with level 1 begin with an interface of their
own and call `wifi_deinit` after it; the second tests the access point's pointer
and destroys the station's (components/NET/net_wifi.c).

What is said about a run is said about the calls into ESP-IDF in their order.
-/

namespace CLIos

open LuaApi Runs

/-- The calls since the last `esp_wifi_start`, the last one first. -/
def sinceStart (calls : List EspCall) : List EspCall :=
  calls.reverse.takeWhile fun c => c ≠ .driver .start

def TornDown (calls : List EspCall) : Prop :=
  .driver .stop ∈ sinceStart calls ∧ .driver .deinit ∈ sinceStart calls

def EspCall.creates : EspCall → Bool
  | .createNetif _ => true
  | _ => false

/-- Interface `i`, counted from 0, was created and not destroyed. -/
def LiveAfter (calls : List EspCall) (i : Nat) : Prop :=
  i < calls.countP EspCall.creates ∧ .destroyNetif (some i) ∉ calls

/-- Every interface destroyed is a live one, and the driver is down before. -/
def OrderlyTeardown (calls : List EspCall) : Prop :=
  ∀ pre id, pre ++ [.destroyNetif id] <+: calls →
    (∃ i, id = some i ∧ LiveAfter pre i) ∧ TornDown pre

/-! ## One call more -/

theorem sinceStart_concat (calls : List EspCall) (c : EspCall) :
    sinceStart (calls ++ [c]) = if c = .driver .start then [] else c :: sinceStart calls := by
  unfold sinceStart
  rw [List.reverse_concat, List.takeWhile_cons]
  by_cases h : c = .driver .start <;> simp [h]

theorem TornDown.concat {calls : List EspCall} (h : TornDown calls) {c : EspCall}
    (hc : c ≠ .driver .start) : TornDown (calls ++ [c]) := by
  unfold TornDown
  rw [sinceStart_concat, if_neg hc]
  exact ⟨List.mem_cons_of_mem c h.1, List.mem_cons_of_mem c h.2⟩

theorem orderlyTeardown_concat (calls : List EspCall) (c : EspCall) :
    OrderlyTeardown (calls ++ [c]) ↔ OrderlyTeardown calls ∧
      ∀ id, c = .destroyNetif id → (∃ i, id = some i ∧ LiveAfter calls i) ∧ TornDown calls := by
  constructor
  · intro h
    refine ⟨fun pre id hp => h pre id (hp.trans (List.prefix_append calls [c])), ?_⟩
    rintro id rfl
    exact h calls id List.prefix_rfl
  · rintro ⟨h, hlast⟩ pre id hp
    rcases concat_prefix_concat.mp hp with ⟨rfl, hc⟩ | hp
    · exact hlast id hc.symm
    · exact h pre id hp

namespace Wifi

variable {δ ε : Type} {D : WifiDriver δ ε}

/-- The interfaces are what the calls have made of them, in good order. -/
structure Traced (s : Wifi δ) : Prop extends Booked s where
  created : s.calls.countP EspCall.creates = s.netifs.length
  destroyed : ∀ i, s.calls.count (.destroyNetif (some i)) = (s.netifs[i]?.map Netif.destroyed).getD 0
  orderly : OrderlyTeardown s.calls

theorem Traced.liveAfter_iff {s : Wifi δ} (h : s.Traced) (i : Nat) :
    LiveAfter s.calls i ↔ ∃ kind, s.netif kind = some i := by
  unfold LiveAfter
  rw [h.created, ← List.count_eq_zero, h.destroyed]
  constructor
  · rintro ⟨hlt, h0⟩
    have hn := List.getElem?_eq_getElem hlt
    rw [hn] at h0
    exact ⟨_, (h.live _ i).mp ⟨_, hn, rfl, h0⟩⟩
  · rintro ⟨kind, hk⟩
    obtain ⟨n, hn, -, h0⟩ := (h.live kind i).mpr hk
    rw [hn]
    exact ⟨(List.getElem?_eq_some_iff.mp hn).1, h0⟩

/-- A call that neither creates nor destroys an interface. -/
theorem Traced.drive {s : Wifi δ} (h : s.Traced) (c : DriverCall) : (s.drive D c).Traced where
  toBooked := h.toBooked.drive c
  created := by
    show (s.calls ++ [EspCall.driver c]).countP EspCall.creates = s.netifs.length
    rw [List.countP_append, h.created]
    rfl
  destroyed := by
    intro i
    show (s.calls ++ [EspCall.driver c]).count (.destroyNetif (some i)) = _
    rw [List.count_append, h.destroyed]
    simp [Wifi.drive]
  orderly := (orderlyTeardown_concat s.calls _).mpr ⟨h.orderly, fun id hid => by cases hid⟩

theorem needNetif_cases (s : Wifi δ) (kind : NetifKind) : s.needNetif kind = s ∨
    (s.needNetif kind).calls = s.calls ++ [.createNetif kind] ∧
      (s.needNetif kind).netifs = s.netifs ++ [⟨kind, 0⟩] := by
  unfold needNetif
  split
  · right
    cases kind <;> exact ⟨rfl, rfl⟩
  · exact Or.inl rfl

/-- A new interface has a number that was not used before. -/
theorem Traced.needNetif {s : Wifi δ} (h : s.Traced) (kind : NetifKind) :
    (s.needNetif kind).Traced := by
  have hbooked := h.toBooked.needNetif kind
  rcases s.needNetif_cases kind with hsame | ⟨hcalls, hnetifs⟩
  · rwa [hsame]
  · refine ⟨hbooked, ?_, fun i => ?_, ?_⟩
    · rw [hcalls, hnetifs, List.length_append, List.countP_append, h.created]
      rfl
    · rw [hcalls, hnetifs, List.count_append, h.destroyed]
      rcases Nat.lt_trichotomy i s.netifs.length with hlt | rfl | hgt
      · rw [List.getElem?_append_left hlt]
        simp
      · simp
      · rw [List.getElem?_eq_none (by omega), List.getElem?_eq_none (by simp; omega)]
        simp
    · rw [hcalls]
      exact (orderlyTeardown_concat s.calls _).mpr ⟨h.orderly, fun id hid => by cases hid⟩

theorem dropNetif_calls (s : Wifi δ) (kind : NetifKind) :
    (s.dropNetif kind).calls = s.calls ++ [.destroyNetif (s.netif kind)] := by
  cases kind <;> rfl

/-- A live interface is destroyed in good order once the driver is down. -/
theorem Traced.dropNetif {s : Wifi δ} (h : s.Traced) {kind : NetifKind}
    (hsome : (s.netif kind).isSome = true) (hdown : TornDown s.calls) :
    (s.dropNetif kind).Traced := by
  have hbooked := h.toBooked.dropNetif kind
  obtain ⟨j, hj⟩ := Option.isSome_iff_exists.mp hsome
  have hnetifs : (s.dropNetif kind).netifs =
      s.netifs.modify j fun n => { n with destroyed := n.destroyed + 1 } := by
    rw [Wifi.dropNetif, hj, netifs_setNetif]
    rfl
  refine ⟨hbooked, ?_, fun i => ?_, ?_⟩
  · rw [dropNetif_calls, hnetifs, List.countP_append, h.created, List.length_modify]
    rfl
  · obtain ⟨n, hn, -⟩ := (h.live kind j).mpr hj
    rw [dropNetif_calls, hj, hnetifs, List.count_append, h.destroyed]
    by_cases hij : j = i
    · subst hij
      rw [List.getElem?_modify_eq, hn]
      simp
    · rw [List.getElem?_modify_ne _ _ hij]
      simp [hij]
  · rw [dropNetif_calls]
    refine (orderlyTeardown_concat s.calls _).mpr ⟨h.orderly, fun id hid => ?_⟩
    obtain rfl : s.netif kind = id := by simpa using hid
    exact ⟨⟨j, hj, (h.liveAfter_iff j).mpr ⟨kind, hj⟩⟩, hdown⟩

/-! ## The helpers -/

theorem Traced.dropIf {s : Wifi δ} (h : s.Traced) (kind : NetifKind) (hdown : TornDown s.calls) :
    (if (s.netif kind).isSome then s.dropNetif kind else s).Traced ∧
      TornDown (if (s.netif kind).isSome then s.dropNetif kind else s).calls := by
  split
  · next hsome =>
    refine ⟨h.dropNetif hsome hdown, ?_⟩
    rw [dropNetif_calls]
    exact hdown.concat (by simp)
  · exact ⟨h, hdown⟩

theorem tornDown_drive (s : Wifi δ) : TornDown ((s.drive D .stop).drive D .deinit).calls := by
  show TornDown (s.calls ++ [EspCall.driver .stop] ++ [EspCall.driver .deinit])
  unfold TornDown
  rw [sinceStart_concat, if_neg (by simp), sinceStart_concat, if_neg (by simp)]
  simp

/-- `wifi_deinit` keeps its own order. -/
theorem Traced.wifiDeinit {s : Wifi δ} (h : s.Traced) : (s.wifiDeinit D).Traced := by
  unfold Wifi.wifiDeinit
  split
  · obtain ⟨h₁, hdown₁⟩ := ((h.drive (D := D) .stop).drive (D := D) .deinit).dropIf .sta
      (s.tornDown_drive)
    obtain ⟨h₂, -⟩ := h₁.dropIf .ap hdown₁
    exact ⟨⟨h₂.live, h₂.once⟩, h₂.created, h₂.destroyed, h₂.orderly⟩
  · exact h

theorem calls_dropIf (s : Wifi δ) (p : Bool) (kind : NetifKind) :
    s.calls <+: (if p then s.dropNetif kind else s).calls := by
  split
  · rw [dropNetif_calls]
    exact List.prefix_append _ _
  · exact List.prefix_rfl

/-- `wifi_deinit` begins with `esp_wifi_stop`. -/
theorem wifiDeinit_calls (s : Wifi δ) (hup : s.wifiInit = true) :
    s.calls ++ [.driver .stop] <+: (s.wifiDeinit D).calls := by
  unfold Wifi.wifiDeinit
  rw [if_pos hup]
  refine List.IsPrefix.trans ?_ ((calls_dropIf _ _ .sta).trans (calls_dropIf _ _ .ap))
  exact List.prefix_append _ [EspCall.driver .deinit]

/-! ## The calls -/

/-- The interface that a stop names. -/
def named : WifiEvent ε → Option NetifKind
  | .staStop _ => some .sta
  | .apStop _ => some .ap
  | _ => none

/-- What a stop destroys ahead of `wifi_deinit` is the interface it names. -/
def NamesTarget (D : WifiDriver δ ε) (s : Wifi δ) (e : WifiEvent ε) : Prop :=
  ∀ kind s' pre id, named e = some kind → s.step D e = some s' →
    s.calls ++ pre ++ [.destroyNetif id] <+: s'.calls → .driver .stop ∉ pre → id = s.netif kind

/-- A stop with level 1 that finds the interface it tests for. -/
def DropsFirst (s : Wifi δ) : WifiEvent ε → Prop
  | .staStop level => toUint8 (level.getD 0) = 1 ∧ s.staNetif ≠ none
  | .apStop level => toUint8 (level.getD 0) = 1 ∧ s.apNetif ≠ none
  | _ => False

/-- With an interface, the driver is up since the last start. -/
structure Standing (s : Wifi δ) : Prop extends WellKept s where
  traced : s.Traced
  up : ∀ kind i, s.netif kind = some i → .driver .deinit ∉ sinceStart s.calls

theorem Standing.drive {s : Wifi δ} (h : s.Standing) {c : DriverCall} (hc : c ≠ .deinit) :
    (s.drive D c).Standing where
  toWellKept := h.toWellKept.drive c
  traced := h.traced.drive c
  up := by
    intro kind i hi
    show .driver .deinit ∉ sinceStart (s.calls ++ [EspCall.driver c])
    rw [sinceStart_concat]
    split
    · exact List.not_mem_nil
    · refine List.not_mem_cons_of_ne_of_not_mem ?_ (h.up kind i hi)
      intro heq
      exact hc (EspCall.driver.inj heq).symm

theorem Standing.lWifiMode {s : Wifi δ} {mode : Option Int} {r : Wifi δ × WifiAnswer}
    (h : s.Standing) (hr : s.lWifiMode D mode = some r) : r.1.Standing := by
  have hkept := h.toWellKept.lWifiMode hr
  obtain ⟨s₁, h₁, hr⟩ := lWifiMode_cases hr
  have hs₁ : s₁.Traced ∧ ∀ kind i, s₁.netif kind = some i →
      .driver .deinit ∉ sinceStart s₁.calls := by
    unfold ensureInit at h₁
    split at h₁
    · cases h₁
      exact ⟨h.traced, h.up⟩
    · obtain ⟨s₂, hc, rfl⟩ := Option.map_eq_some_iff.mp h₁
      obtain ⟨-, rfl⟩ := check_eq_some hc
      have hd := h.drive (D := D) (c := .init) (by simp)
      exact ⟨⟨⟨hd.live, hd.once⟩, hd.traced.created, hd.traced.destroyed, hd.traced.orderly⟩, hd.up⟩
  obtain hr | ⟨m, hr⟩ := hr
  · rw [hr] at hkept ⊢
    exact ⟨hkept, hs₁.1, hs₁.2⟩
  · rw [hr] at hkept ⊢
    have hneed : (s₁.needNetifs m).Traced := by
      cases m with
      | sta => exact hs₁.1.needNetif .sta
      | ap => exact hs₁.1.needNetif .ap
      | apsta => exact (hs₁.1.needNetif .sta).needNetif .ap
    refine ⟨hkept, (hneed.drive _).drive _, fun kind i _ => ?_⟩
    -- the last call is a start
    show .driver .deinit ∉ sinceStart (_ ++ [EspCall.driver .start])
    rw [sinceStart_concat, if_pos rfl]
    exact List.not_mem_nil

/-- After `wifi_deinit` no interface is left. -/
theorem Standing.wifiDeinit {s : Wifi δ} (h : s.Standing) (hup : s.wifiInit = true) :
    (s.wifiDeinit D).Standing := by
  have hkept : (s.wifiDeinit D).WellKept := h.toBooked.wifiDeinit hup
  have hdown : (s.wifiDeinit D).wifiInit = false := by
    unfold Wifi.wifiDeinit
    rw [if_pos hup]
  obtain ⟨hsta, hap⟩ := hkept.down hdown
  refine ⟨hkept, h.traced.wifiDeinit, fun kind i hi => ?_⟩
  cases kind with
  | sta => cases hsta.symm.trans hi
  | ap => cases hap.symm.trans hi

/-- A stop with level 1 of an initialised library. -/
theorem step_delete (s : Wifi δ) (hup : s.wifiInit = true) (level : Option Int)
    (hlevel : toUint8 (level.getD 0) = 1) :
    s.step D (.staStop level) =
        some ((if s.staNetif.isSome then s.dropNetif .sta else s).wifiDeinit D) ∧
      s.step D (.apStop level) =
        some ((if s.apNetif.isSome then s.dropNetif .sta else s).wifiDeinit D) := by
  simp [step, lWifiStaStop, lWifiApStop, hup, hlevel]

/-- A stop that finds its interface destroys one before the driver is down. -/
theorem Standing.not_orderly {s s' : Wifi δ} {e : WifiEvent ε} (h : s.Standing)
    (hd : s.DropsFirst e) (hs : s.step D e = some s') : ¬ OrderlyTeardown s'.calls := by
  have hfirst : ∀ kind i, s.netif kind = some i → s.wifiInit = true →
      ¬ OrderlyTeardown ((s.dropNetif .sta).wifiDeinit D).calls := by
    intro kind i hi hup hord
    have hpre : s.calls ++ [.destroyNetif (s.netif .sta)] <+:
        ((s.dropNetif .sta).wifiDeinit D).calls := by
      rw [← dropNetif_calls]
      refine List.IsPrefix.trans (List.prefix_append _ _) (wifiDeinit_calls _ ?_)
      rw [dropNetif_wifiInit, hup]
    exact h.up kind i hi (hord _ _ hpre).2.2
  have hup : ∀ kind, s.netif kind ≠ none → s.wifiInit = true := by
    intro kind hne
    by_contra hdown
    obtain ⟨hsta, hap⟩ := h.down (by simpa using hdown)
    cases kind with
    | sta => exact hne hsta
    | ap => exact hne hap
  cases e with
  | staStop level =>
    obtain ⟨hlevel, hne⟩ := hd
    obtain ⟨i, hi⟩ := Option.ne_none_iff_exists'.mp hne
    rw [(s.step_delete (hup .sta hne) level hlevel).1, hi] at hs
    exact Option.some.inj hs ▸ hfirst .sta i hi (hup .sta hne)
  | apStop level =>
    obtain ⟨hlevel, hne⟩ := hd
    obtain ⟨i, hi⟩ := Option.ne_none_iff_exists'.mp hne
    rw [(s.step_delete (hup .ap hne) level hlevel).2, hi] at hs
    exact Option.some.inj hs ▸ hfirst .ap i hi (hup .ap hne)
  | _ => exact hd.elim

/-- A stop with level 1 that does not, is a call of `wifi_deinit`. -/
theorem step_stop {s s' : Wifi δ} {e : WifiEvent ε} {kind : NetifKind}
    (hd : ¬ s.DropsFirst e) (hk : named e = some kind) (hs : s.step D e = some s') :
    s' = s ∨ s' = s.drive D .stop ∨ s' = (s.drive D .disconnect).drive D .stop ∨
      s.wifiInit = true ∧ s' = s.wifiDeinit D := by
  cases e with
  | staStop level =>
    obtain ⟨r, hr, rfl⟩ := Option.map_eq_some_iff.mp hs
    obtain hr | hr | ⟨hup, hlevel, hr⟩ := lWifiStaStop_cases hr
    · exact Or.inl hr
    · exact Or.inr (Or.inr (Or.inl hr))
    · have hnone : s.staNetif = none := by
        by_contra hne
        exact hd ⟨hlevel, hne⟩
      rw [hnone] at hr
      exact Or.inr (Or.inr (Or.inr ⟨hup, hr⟩))
  | apStop level =>
    obtain ⟨r, hr, rfl⟩ := Option.map_eq_some_iff.mp hs
    obtain hr | hr | ⟨hup, hlevel, hr⟩ := lWifiApStop_cases hr
    · exact Or.inl hr
    · exact Or.inr (Or.inl hr)
    · have hnone : s.apNetif = none := by
        by_contra hne
        exact hd ⟨hlevel, hne⟩
      rw [hnone] at hr
      exact Or.inr (Or.inr (Or.inr ⟨hup, hr⟩))
  | _ => cases hk

theorem Standing.step {s s' : Wifi δ} {e : WifiEvent ε} (h : s.Standing) (hd : ¬ s.DropsFirst e)
    (hs : s.step D e = some s') : s'.Standing := by
  have hstop : ∀ kind, named e = some kind → s'.Standing := by
    intro kind hk
    obtain rfl | rfl | rfl | ⟨hup, rfl⟩ := step_stop hd hk hs
    · exact h
    · exact h.drive (by simp)
    · exact (h.drive (by simp)).drive (by simp)
    · exact h.wifiDeinit hup
  cases e with
  | mode m =>
    obtain ⟨r, hr, rfl⟩ := Option.map_eq_some_iff.mp hs
    exact h.lWifiMode hr
  | staStart ssid pass =>
    obtain ⟨r, hr, rfl⟩ := Option.map_eq_some_iff.mp hs
    obtain ⟨s₁, h₁, hr⟩ := Option.bind_eq_some_iff.mp hr
    obtain ⟨s₂, h₂, rfl⟩ := Option.map_eq_some_iff.mp hr
    obtain ⟨-, rfl⟩ := check_eq_some h₁
    obtain ⟨-, rfl⟩ := check_eq_some h₂
    exact (h.drive (by simp)).drive (by simp)
  | staStop level => exact hstop .sta rfl
  | apStart ssid pass channel =>
    obtain ⟨r, hr, rfl⟩ := Option.map_eq_some_iff.mp hs
    obtain ⟨s₁, h₁, rfl⟩ := Option.map_eq_some_iff.mp hr
    obtain ⟨-, rfl⟩ := check_eq_some h₁
    exact h.drive (by simp)
  | apStop level => exact hstop .ap rfl
  | staDisconnected =>
    cases hs
    exact h.drive (by simp)
  | driver e =>
    cases hs
    exact ⟨⟨⟨h.live, h.once⟩, h.down⟩, ⟨⟨h.live, h.once⟩, h.traced.created, h.traced.destroyed,
      h.traced.orderly⟩, h.up⟩

/-- What comes after the first `esp_wifi_stop` has it before itself. -/
theorem stop_mem_of_destroy {front rest pre : List EspCall} {id : Option Nat}
    (hfront : .destroyNetif id ∉ front)
    (h : pre ++ [.destroyNetif id] <+: front ++ .driver .stop :: rest) :
    .driver .stop ∈ pre := by
  induction front generalizing pre with
  | nil =>
    cases pre with
    | nil =>
      have := (List.cons_prefix_cons.mp h).1
      cases this
    | cons c pre =>
      obtain rfl := (List.cons_prefix_cons.mp h).1
      exact List.mem_cons_self
  | cons d front ih =>
    cases pre with
    | nil =>
      have heq := (List.cons_prefix_cons.mp h).1
      exact absurd (heq ▸ List.mem_cons_self) hfront
    | cons c pre =>
      have h := (List.cons_prefix_cons.mp h).2
      exact List.mem_cons_of_mem c (ih (fun hmem => hfront (List.mem_cons_of_mem d hmem)) h)

/-- Without an interface of its own a stop destroys nothing ahead of `wifi_deinit`. -/
theorem namesTarget_of_not_dropsFirst {s : Wifi δ} {e : WifiEvent ε} (hd : ¬ s.DropsFirst e) :
    s.NamesTarget D e := by
  intro kind s' pre id hk hs hpre hstop
  have hnew : ∀ front rest : List EspCall, .destroyNetif id ∉ front →
      s'.calls = s.calls ++ (front ++ .driver .stop :: rest) → id = s.netif kind := by
    intro front rest hfront hcalls
    rw [hcalls, List.append_assoc] at hpre
    exact absurd (stop_mem_of_destroy hfront ((List.prefix_append_right_inj _).mp hpre)) hstop
  obtain rfl | rfl | rfl | ⟨hup, rfl⟩ := step_stop hd hk hs
  · have hlen := hpre.length_le
    simp only [List.length_append, List.length_singleton] at hlen
    omega
  · exact hnew [] [] List.not_mem_nil rfl
  · refine hnew [.driver .disconnect] [] (by simp) ?_
    exact List.append_assoc s.calls _ _
  · obtain ⟨rest, hrest⟩ := wifiDeinit_calls (D := D) s hup
    refine hnew [] rest List.not_mem_nil ?_
    rw [← hrest, List.append_assoc]
    rfl

end Wifi

/-- **Teardown.**  Live interfaces only are destroyed, after the driver is down
and as the call says, in exactly the runs where no stop with level 1 finds the
interface it tests for. -/
theorem wifi_teardown_iff {δ ε : Type} (D : WifiDriver δ ε) (es : List (WifiEvent ε)) :
    ((wifi D).Always (fun s => OrderlyTeardown s.calls) es ∧
      (wifi D).Along (Wifi.NamesTarget D) es) ↔
      (wifi D).Along (fun s e => ¬ s.DropsFirst e) es := by
  have hordered : (wifi D).Always (fun s => OrderlyTeardown s.calls) es ↔
      (wifi D).Along (fun s e => ¬ s.DropsFirst e) es := by
    apply Machine.always_iff_along (I := Wifi.Standing)
    · have hkept := wifi_wellKept D [] [] _ List.prefix_rfl rfl
      refine ⟨hkept, ⟨hkept.toBooked, rfl, fun i => rfl, fun pre id hp => ?_⟩, fun kind i hi => ?_⟩
      · exact absurd hp (not_concat_prefix_nil pre _)
      · cases kind <;> cases hi
    · exact fun s hs => hs.traced.orderly
    · exact fun s e s' hs hstep => ⟨fun hd => hs.step hd hstep,
        fun hord hd => hs.not_orderly hd hstep hord⟩
  rw [hordered]
  refine ⟨fun h => h.1, fun h => ⟨h, fun l e s s' hl hs hstep => ?_⟩⟩
  exact Wifi.namesTarget_of_not_dropsFirst (h l e s s' hl hs hstep)

/-- `wifi.mode(wifi.AP)` and `wifi.ap.stop(1)`: `esp_netif_destroy_default_wifi(NULL)`
with the driver up. -/
theorem ap_stop_destroys_null : ¬ ∀ es,
    ((wifi (EspWifi.driver (some .sta))).Always (fun s => OrderlyTeardown s.calls) es ∧
      (wifi (EspWifi.driver (some .sta))).Along (Wifi.NamesTarget (EspWifi.driver (some .sta))) es) := by
  intro h
  have hordered := (h [.mode (some 2), .apStop (some 1)]).1 _ _ List.prefix_rfl rfl
  obtain ⟨⟨i, hi, -⟩, -⟩ := hordered [.driver .init, .createNetif .ap, .driver (.setMode .ap),
    .driver .start] none ⟨_, rfl⟩
  cases hi

end CLIos
