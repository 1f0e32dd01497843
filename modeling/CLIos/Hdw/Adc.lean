import CLIos.Com.Handles
import CLIos.Lib.Lock
import CLIos.Lib.LuaApi

/-!
# ADC channels and their converters

`adc.channel` makes a userdata with a unit handle of the oneshot driver of its own;
`ch:close` and `__gc` give the handle back (components/HDW/hdw_adc.c).  The driver
grants one live handle for each converter, and `ESP_ERROR_CHECK` of a call that
fails ends the run.

So a second channel of a converter ends the firmware while the first has its
handle, and when a channel that was dropped is collected is not for the script to
say.
-/

namespace CLIos

open Locking LuaApi Runs

inductive AdcUnit where
  | unit1
  | unit2
deriving DecidableEq

inductive AdcAtten where
  | db0
  | db2_5
  | db6
  | db12
deriving DecidableEq

/-- `(unit==1)?ADC_UNIT_1:ADC_UNIT_2` -/
def adcUnit (unit : Int) : AdcUnit := if unit = 1 then .unit1 else .unit2

def adcAtten (attenDb : Int) : AdcAtten :=
  if 12 ≤ attenDb then .db12
  else if 6 ≤ attenDb then .db6
  else if 3 ≤ attenDb then .db2_5
  else .db0

/-! ## The driver -/

/-- The live unit handles with their converters, and the channels configured. -/
structure AdcDriver where
  made : Nat
  live : List (Nat × AdcUnit)
  configured : List (Nat × Int × AdcAtten)

/-- The channels that a converter has. -/
abbrev AdcPort := AdcUnit → Int → Bool

namespace AdcDriver

/-- `adc_oneshot_new_unit` -/
def newUnit (d : AdcDriver) (u : AdcUnit) : Option (AdcDriver × Nat) :=
  if u ∈ d.live.map Prod.snd then none
  else some ({ d with made := d.made + 1, live := (d.made, u) :: d.live }, d.made)

/-- `adc_oneshot_config_channel` -/
def configChannel (d : AdcDriver) (port : AdcPort) (h : Nat) (u : AdcUnit) (channel : Int)
    (atten : AdcAtten) : Option AdcDriver :=
  if port u channel then some { d with configured := (h, channel, atten) :: d.configured } else none

/-- `adc_oneshot_del_unit` -/
def delUnit (d : AdcDriver) (h : Nat) : AdcDriver :=
  { d with live := d.live.filter fun x => x.1 ≠ h }

theorem newUnit_isSome_iff (d : AdcDriver) (u : AdcUnit) :
    (d.newUnit u).isSome = true ↔ u ∉ d.live.map Prod.snd := by
  unfold newUnit
  split <;> simp_all

end AdcDriver

/-! ## The library -/

/-- `lua_adc_ch_t` -/
structure AdcChannel where
  unit : Option Nat
  cali : Bool
  caliEnabled : Bool
  unitId : AdcUnit
  channelId : Int

/-- The arguments of `adc.channel`: the message if one of the `luaL_` functions
rejects them; `caliMade` is whether a calibration scheme could be made. -/
structure AdcArgs where
  badArgument : Option String
  unit : Int
  channel : Int
  attenDb : Option Int
  wantCali : Bool
  caliMade : Bool

structure Adc where
  channels : List AdcChannel
  /-- the channels that the garbage collector has freed -/
  collected : List Nat
  driver : AdcDriver

inductive AdcEvent where
  | channel (a : AdcArgs)
  | close (k : Nat)
  /-- the garbage collector calls `__gc` -/
  | collect (k : Nat)

namespace Adc

def lAdcChannel (port : AdcPort) (s : Adc) (a : AdcArgs) : Option (Adc × Except String Nat) :=
  match a.badArgument with
  | some msg => some (s, .error msg)
  | none =>
    let unitId := adcUnit (toInt a.unit)
    (s.driver.newUnit unitId).bind fun (driver, unit) =>
    (driver.configChannel port unit unitId (toInt a.channel)
      (adcAtten (toInt (a.attenDb.getD 11)))).map fun driver =>
    let cali := a.wantCali && a.caliMade
    ({ s with
        channels := s.channels ++ [⟨some unit, cali, cali, unitId, toInt a.channel⟩]
        driver := driver }, .ok s.channels.length)

/-- `l_adc_channel_gc` on the channel `k`. -/
def lAdcChannelGc (s : Adc) (k : Nat) (ch : AdcChannel) : Adc :=
  { s with
    channels := s.channels.set k { ch with unit := none, cali := false }
    driver := ch.unit.elim s.driver s.driver.delUnit }

/-- The channel `k`, as long as Lua code may have it. -/
def reachable (s : Adc) (k : Nat) : Option AdcChannel :=
  if k ∈ s.collected then none else s.channels[k]?

def lAdcClose (s : Adc) (k : Nat) : Option Adc := (s.reachable k).map fun ch => s.lAdcChannelGc k ch

def step (port : AdcPort) (s : Adc) : AdcEvent → Option Adc
  | .channel a => (s.lAdcChannel port a).map Prod.fst
  | .close k => s.lAdcClose k
  | .collect k => (s.reachable k).map fun ch =>
    { s.lAdcChannelGc k ch with collected := k :: s.collected }

end Adc

def adc (port : AdcPort) : Machine Adc AdcEvent where
  init := ⟨[], [], ⟨0, [], []⟩⟩
  step := Adc.step port

/-! ## Who holds a handle -/

/-- `l_adc_channel_gc` runs on the channel `k`. -/
def AdcEvent.Finalizes (k : Nat) (e : AdcEvent) : Prop := e = .close k ∨ e = .collect k

/-- The channel `k` was closed or collected. -/
def Finalized (l : List AdcEvent) (k : Nat) : Prop := ∃ e ∈ l, e.Finalizes k

theorem finalized_concat (l : List AdcEvent) (e : AdcEvent) (k : Nat) :
    Finalized (l ++ [e]) k ↔ Finalized l k ∨ e.Finalizes k := by
  unfold Finalized
  constructor
  · rintro ⟨e', he', hk⟩
    rcases List.mem_append.mp he' with he' | he'
    · exact Or.inl ⟨e', he', hk⟩
    · rw [List.mem_singleton.mp he'] at hk
      exact Or.inr hk
  · rintro (⟨e', he', hk⟩ | hk)
    · exact ⟨e', List.mem_append_left _ he', hk⟩
    · exact ⟨e, List.mem_append_right _ (List.mem_singleton.mpr rfl), hk⟩

namespace Adc

/-- What a step can do. -/
inductive Stepped (s : Adc) : AdcEvent → Adc → Prop where
  | refused (a : AdcArgs) : Stepped s (.channel a) s
  | made (a : AdcArgs) (u : AdcUnit) (cali : Bool) (channelId : Int)
      (configured : List (Nat × Int × AdcAtten)) :
      Stepped s (.channel a)
        ⟨s.channels ++ [⟨some s.driver.made, cali, cali, u, channelId⟩], s.collected,
          ⟨s.driver.made + 1, (s.driver.made, u) :: s.driver.live, configured⟩⟩
  | finalized (e : AdcEvent) (k : Nat) (ch : AdcChannel) (collected : List Nat)
      (he : e.Finalizes k) (hother : ∀ j, e.Finalizes j → j = k)
      (hk : s.channels[k]? = some ch) :
      Stepped s e { s.lAdcChannelGc k ch with collected := collected }

theorem reachable_eq_some {s : Adc} {k : Nat} {ch : AdcChannel} :
    s.reachable k = some ch ↔ k ∉ s.collected ∧ s.channels[k]? = some ch := by
  unfold reachable
  rw [Option.ite_none_left_eq_some]

theorem stepped {port : AdcPort} {s s' : Adc} {e : AdcEvent} (h : s.step port e = some s') :
    Stepped s e s' := by
  cases e with
  | channel a =>
    obtain ⟨⟨s₁, r⟩, hcall, rfl⟩ := Option.map_eq_some_iff.mp h
    unfold lAdcChannel at hcall
    split at hcall
    · cases hcall
      exact .refused a
    · obtain ⟨⟨d, unit⟩, hnew, hcall⟩ := Option.bind_eq_some_iff.mp hcall
      obtain ⟨d', hconfig, hcall⟩ := Option.map_eq_some_iff.mp hcall
      unfold AdcDriver.newUnit at hnew
      unfold AdcDriver.configChannel at hconfig
      split at hnew
      · cases hnew
      · split at hconfig
        · cases hnew
          cases hconfig
          cases hcall
          exact .made a _ _ _ _
        · cases hconfig
  | close k =>
    obtain ⟨ch, hk, rfl⟩ := Option.map_eq_some_iff.mp h
    refine .finalized _ k ch s.collected (Or.inl rfl) ?_ (reachable_eq_some.mp hk).2
    rintro j (hj | hj) <;> cases hj
    rfl
  | collect k =>
    obtain ⟨ch, hk, rfl⟩ := Option.map_eq_some_iff.mp h
    refine .finalized _ k ch _ (Or.inr rfl) ?_ (reachable_eq_some.mp hk).2
    rintro j (hj | hj) <;> cases hj
    rfl

/-- A channel has a handle until it is closed or collected, and the live handles are
those of the channels. -/
structure Inv (l : List AdcEvent) (s : Adc) : Prop where
  closed : ∀ (k : Nat) (ch : AdcChannel), s.channels[k]? = some ch →
    (ch.unit = none ↔ Finalized l k)
  bound : ∀ k, Finalized l k → k < s.channels.length
  held : ∀ h u, (h, u) ∈ s.driver.live ↔
    ∃ (k : Nat) (ch : AdcChannel), s.channels[k]? = some ch ∧ ch.unit = some h ∧ ch.unitId = u
  made : ∀ h u, (h, u) ∈ s.driver.live → h < s.driver.made
  single : ∀ (j k : Nat) (ch ch' : AdcChannel) (h : Nat), s.channels[j]? = some ch →
    s.channels[k]? = some ch' → ch.unit = some h → ch'.unit = some h → j = k

theorem inv_nil (port : AdcPort) : Inv [] (adc port).init where
  closed := fun k ch hk => by cases hk
  bound := fun k ⟨e, he, _⟩ => by cases he
  held := fun h u => iff_of_false List.not_mem_nil fun ⟨k, ch, hk, _⟩ => by cases hk
  made := fun h u hm => by cases hm
  single := fun j k ch ch' h hj => by cases hj

variable {l : List AdcEvent} {s s' : Adc}

theorem Inv.refused (h : Inv l s) (a : AdcArgs) : Inv (l ++ [.channel a]) s := by
  have hsame : ∀ k, Finalized (l ++ [.channel a]) k ↔ Finalized l k := by
    intro k
    rw [finalized_concat]
    exact or_iff_left fun hk => by rcases hk with hk | hk <;> cases hk
  exact ⟨fun k ch hk => (h.closed k ch hk).trans (hsame k).symm,
    fun k hk => h.bound k ((hsame k).mp hk), h.held, h.made, h.single⟩

/-- A new channel with the new handle. -/
theorem Inv.addChannel (h : Inv l s) (ch : AdcChannel) (configured : List (Nat × Int × AdcAtten))
    (hunit : ch.unit = some s.driver.made) :
    Inv l ⟨s.channels ++ [ch], s.collected,
      ⟨s.driver.made + 1, (s.driver.made, ch.unitId) :: s.driver.live, configured⟩⟩ := by
  have hnew : ¬ Finalized l s.channels.length := fun hk => Nat.lt_irrefl _ (h.bound _ hk)
  have hold : ∀ {k : Nat} {c : AdcChannel}, s.channels[k]? = some c →
      (s.channels ++ [ch])[k]? = some c := fun hk => by
    rw [List.getElem?_append_left (List.getElem?_eq_some_iff.mp hk).1, hk]
  -- the channels so far have older handles
  have hfresh : ∀ {k : Nat} {c : AdcChannel} {x : Nat}, s.channels[k]? = some c →
      c.unit = some x → x ≠ s.driver.made := fun hk hx =>
    Nat.ne_of_lt (h.made _ _ ((h.held _ _).mpr ⟨_, _, hk, hx, rfl⟩))
  refine ⟨fun k c hk => ?_, fun k hk => ?_, fun x u => ?_, fun x u hx => ?_, ?_⟩
  · rcases getElem?_concat_cases hk with hk | ⟨rfl, rfl⟩
    · exact h.closed k c hk
    · refine iff_of_false ?_ hnew
      rw [hunit]
      exact Option.some_ne_none _
  · show k < (s.channels ++ [ch]).length
    rw [List.length_append]
    exact Nat.lt_succ_of_lt (h.bound k hk)
  · show (x, u) ∈ (s.driver.made, ch.unitId) :: s.driver.live ↔ _
    rw [List.mem_cons]
    constructor
    · rintro (heq | hx)
      · cases heq
        exact ⟨_, ch, List.getElem?_concat_length, hunit, rfl⟩
      · obtain ⟨k, c, hk, hc⟩ := (h.held x u).mp hx
        exact ⟨k, c, hold hk, hc⟩
    · rintro ⟨k, c, hk, hx, rfl⟩
      rcases getElem?_concat_cases hk with hk | ⟨rfl, rfl⟩
      · exact Or.inr ((h.held x _).mpr ⟨k, c, hk, hx, rfl⟩)
      · rw [hunit] at hx
        cases hx
        exact Or.inl rfl
  · rcases List.mem_cons.mp hx with heq | hx
    · cases heq
      exact Nat.lt_succ_self _
    · exact Nat.lt_succ_of_lt (h.made x u hx)
  · intro j k c c' x hj hk hx hx'
    rcases getElem?_concat_cases hj with hj₀ | ⟨rfl, rfl⟩
    · rcases getElem?_concat_cases hk with hk₀ | ⟨rfl, rfl⟩
      · exact h.single j k c c' x hj₀ hk₀ hx hx'
      · rw [hunit] at hx'
        cases hx'
        exact absurd rfl (hfresh hj₀ hx)
    · rcases getElem?_concat_cases hk with hk₀ | ⟨rfl, rfl⟩
      · rw [hunit] at hx
        cases hx
        exact absurd rfl (hfresh hk₀ hx')
      · rfl

/-- A channel that gives its handle back. -/
theorem Inv.finalize (h : Inv l s) {e : AdcEvent} {k : Nat} {ch : AdcChannel}
    (he : e.Finalizes k) (hother : ∀ j, e.Finalizes j → j = k) (hk : s.channels[k]? = some ch)
    (collected : List Nat) :
    Inv (l ++ [e]) { s.lAdcChannelGc k ch with collected := collected } := by
  have hlive : ∀ x u, (x, u) ∈ (s.lAdcChannelGc k ch).driver.live ↔
      (x, u) ∈ s.driver.live ∧ ch.unit ≠ some x := by
    intro x u
    unfold lAdcChannelGc
    cases hunit : ch.unit with
    | none => simp
    | some y =>
      show (x, u) ∈ s.driver.live.filter _ ↔ _
      rw [List.mem_filter, decide_eq_true_iff]
      exact and_congr_right fun _ => not_congr ⟨fun h => h ▸ rfl, fun h => (Option.some.inj h).symm⟩
  refine ⟨fun j c hj => ?_, fun j hj => ?_, fun x u => ?_, fun x u hx => ?_, ?_⟩
  · rw [finalized_concat]
    rcases getElem?_set_cases hk hj with ⟨rfl, rfl⟩ | ⟨hne, hj⟩
    · exact iff_of_true rfl (Or.inr he)
    · rw [h.closed j c hj]
      exact (or_iff_left fun hfin => hne (hother j hfin)).symm
  · show j < (s.channels.set k _).length
    rw [List.length_set]
    rcases (finalized_concat l e j).mp hj with hj | hj
    · exact h.bound j hj
    · rw [hother j hj]
      exact (List.getElem?_eq_some_iff.mp hk).1
  · refine (hlive x u).trans ?_
    constructor
    · rintro ⟨hx, hne⟩
      obtain ⟨j, c, hj, hc, hu⟩ := (h.held x u).mp hx
      refine ⟨j, c, ?_, hc, hu⟩
      have hjk : j ≠ k := by
        rintro rfl
        obtain rfl : c = ch := Option.some.inj (hj.symm.trans hk)
        exact hne hc
      show (s.channels.set k _)[j]? = some c
      rw [List.getElem?_set_ne (Ne.symm hjk), hj]
    · rintro ⟨j, c, hj, hc, hu⟩
      rcases getElem?_set_cases hk hj with ⟨rfl, rfl⟩ | ⟨hne, hj⟩
      · cases hc
      · exact ⟨(h.held x u).mpr ⟨j, c, hj, hc, hu⟩,
          fun hx => hne (h.single j k c ch x hj hk hc hx)⟩
  · have hmade : (s.lAdcChannelGc k ch).driver.made = s.driver.made := by
      unfold lAdcChannelGc
      cases ch.unit <;> rfl
    show x < (s.lAdcChannelGc k ch).driver.made
    rw [hmade]
    exact h.made x u ((hlive x u).mp hx).1
  · intro i j c c' x hi hj hx hx'
    rcases getElem?_set_cases hk hi with ⟨rfl, rfl⟩ | ⟨-, hi⟩
    · cases hx
    · rcases getElem?_set_cases hk hj with ⟨rfl, rfl⟩ | ⟨-, hj⟩
      · cases hx'
      · exact h.single i j c c' x hi hj hx hx'

theorem Inv.step (h : Inv l s) {port : AdcPort} {e : AdcEvent} (hs : s.step port e = some s') :
    Inv (l ++ [e]) s' := by
  cases stepped hs with
  | refused a => exact h.refused a
  | made a u cali channelId configured =>
    exact (h.refused a).addChannel ⟨_, cali, cali, u, channelId⟩ configured rfl
  | finalized _ k ch collected he hother hk => exact h.finalize he hother hk collected

/-! ## The handles as peripheral handles -/

/-- The handle type hw.adc.ch. -/
def handle (ch : AdcChannel) : PeriphHandle := .adcCh ch.unit.isSome ch.cali ch.caliEnabled

def periphEvents : AdcEvent → List PeriphEvent
  | .channel a =>
    if a.badArgument = none then [.new (.adcChannel (a.wantCali && a.caliMade)) true] else []
  | .close k => [.method k (.adcClose false false)]
  | .collect k => [.collect k false false]

/-- The same handles, none of them refused. -/
structure Shows (s : Adc) (p : Periph) : Prop where
  handles : p.handles = s.channels.map handle
  collected : p.collected = s.collected
  aborted : p.aborted = false

theorem Shows.finalize {p : Periph} (h : Shows s p) (k : Nat) (ch : AdcChannel)
    {answer : Option PeriphAnswer} (ha : answer ≠ none) :
    Shows (s.lAdcChannelGc k ch) (p.apply k
      { PeriphHandle.adcChannelGc k ch.unit.isSome ch.cali ch.caliEnabled false false with
        answer := answer }) where
  handles := by
    show p.handles.set k _ ++ [] = (s.channels.set k _).map handle
    rw [h.handles, List.append_nil, List.map_set]
    rfl
  collected := h.collected
  aborted := by
    obtain ⟨r, rfl⟩ := Option.ne_none_iff_exists'.mp ha
    rfl

theorem shows_step {p : Periph} {port : AdcPort} {e : AdcEvent} (h : Shows s p)
    (hs : s.step port e = some s') :
    ∃ p', (periphEvents e).foldlM periph.step p = some p' ∧ Shows s' p' := by
  have hget : ∀ {k : Nat} {ch : AdcChannel}, s.channels[k]? = some ch →
      p.handles[k]? = some (handle ch) := fun hk => by rw [h.handles, List.getElem?_map, hk]; rfl
  cases e with
  | channel a =>
    obtain ⟨⟨s₁, r⟩, hcall, rfl⟩ := Option.map_eq_some_iff.mp hs
    unfold lAdcChannel at hcall
    split at hcall
    · next msg ha =>
      cases hcall
      exact ⟨p, by simp [periphEvents, ha], h⟩
    · next ha =>
      obtain ⟨⟨d, unit⟩, -, hcall⟩ := Option.bind_eq_some_iff.mp hcall
      obtain ⟨d', -, heq⟩ := Option.map_eq_some_iff.mp hcall
      cases heq
      let c : PeriphConstructor := .adcChannel (a.wantCali && a.caliMade)
      refine ⟨{ p with handles := p.handles ++ [c.handle] }, ?_, ?_, h.collected, h.aborted⟩
      · simp [periphEvents, ha, periph, Periph.step, Periph.stepNew, h.aborted, c]
      · show p.handles ++ _ = (s.channels ++ _).map handle
        rw [h.handles, List.map_append]
        rfl
  | close k =>
    obtain ⟨ch, hk, rfl⟩ := Option.map_eq_some_iff.mp hs
    obtain ⟨hlive, hk⟩ := reachable_eq_some.mp hk
    refine ⟨_, ?_, h.finalize k ch (Option.some_ne_none (.ok (.boolean true)))⟩
    simp only [periphEvents, List.foldlM_cons, List.foldlM_nil, periph, Periph.step, h.aborted,
      Periph.stepMethod, hget hk, h.collected, hlive]
    rfl
  | collect k =>
    obtain ⟨ch, hk, rfl⟩ := Option.map_eq_some_iff.mp hs
    obtain ⟨hlive, hk⟩ := reachable_eq_some.mp hk
    rw [← h.collected] at hlive
    have hfin := h.finalize k ch (Option.some_ne_none (.ok .nothing))
    refine ⟨{ p.apply k _ with collected := k :: p.collected }, ?_, hfin.handles, ?_, hfin.aborted⟩
    · simp only [periphEvents, List.foldlM_cons, List.foldlM_nil, periph, Periph.step, h.aborted,
        Periph.stepCollect, hget hk, hlive]
      rfl
    · show k :: p.collected = k :: s.collected
      rw [h.collected]

/-- The unit for which an event calls `adc_oneshot_new_unit`. -/
def newUnitCall : AdcEvent → Option AdcUnit
  | .channel a => if a.badArgument = none then some (adcUnit (toInt a.unit)) else none
  | _ => none

end Adc

theorem adc_inv (port : AdcPort) (es : List AdcEvent) (s : Adc) (h : (adc port).run es = some s) :
    Adc.Inv es s := by
  induction es, s, h using Machine.run_induction with
  | init => exact Adc.inv_nil port
  | step es s e s' _ hs ih => exact ih.step hs

/-- Every run is one of peripheral handles (Com/Handles). -/
theorem adc_run_periph (port : AdcPort) (es : List AdcEvent) (s : Adc)
    (h : (adc port).run es = some s) :
    ∃ p, periph.run (es.flatMap Adc.periphEvents) = some p ∧ Adc.Shows s p := by
  apply Machine.run_of_relation Adc.periphEvents ?_ ?_ es s h
  · exact ⟨rfl, rfl, rfl⟩
  · intro s p e s' hshows hs
    exact Adc.shows_step hshows hs

/-- Whenever `adc_oneshot_new_unit` is called, the unit has no live handle, and the
call succeeds. -/
def UnitsFree (port : AdcPort) (es : List AdcEvent) : Prop :=
  ∀ l e s u, l ++ [e] <+: es → (adc port).run l = some s → Adc.newUnitCall e = some u →
    u ∉ s.driver.live.map Prod.snd ∧ (s.driver.newUnit u).isSome = true

/-- Whenever `adc_oneshot_new_unit` is called, all channels of the unit made before
were closed or collected. -/
def ChannelsFinalized (port : AdcPort) (es : List AdcEvent) : Prop :=
  ∀ l e s u, l ++ [e] <+: es → (adc port).run l = some s → Adc.newUnitCall e = some u →
    ∀ (k : Nat) (ch : AdcChannel), s.channels[k]? = some ch → ch.unitId = u → Finalized l k

theorem Adc.Inv.free_iff {l : List AdcEvent} {s : Adc} (h : Adc.Inv l s) (u : AdcUnit) :
    u ∉ s.driver.live.map Prod.snd ↔
      ∀ (k : Nat) (ch : AdcChannel), s.channels[k]? = some ch → ch.unitId = u → Finalized l k := by
  constructor
  · intro hfree k ch hk hu
    rw [← h.closed k ch hk]
    by_contra hunit
    obtain ⟨x, hx⟩ := Option.ne_none_iff_exists'.mp hunit
    exact hfree (List.mem_map.mpr ⟨(x, u), (h.held x u).mpr ⟨k, ch, hk, hx, hu⟩, rfl⟩)
  · intro hall hmem
    obtain ⟨⟨x, v⟩, hx, rfl⟩ := List.mem_map.mp hmem
    obtain ⟨k, ch, hk, hunit, hu⟩ := (h.held x v).mp hx
    rw [(h.closed k ch hk).mpr (hall k ch hk hu)] at hunit
    cases hunit

/-- **Converters.**  In a run no channel meets a converter in use exactly if each is
made after all channels of its converter made before were closed or collected. -/
theorem adc_units_iff (port : AdcPort) (es : List AdcEvent) :
    UnitsFree port es ↔ ChannelsFinalized port es := by
  constructor
  · intro h l e s u hl hs he
    exact ((adc_inv port l s hs).free_iff u).mp (h l e s u hl hs he).1
  · intro h l e s u hl hs he
    have hfree := ((adc_inv port l s hs).free_iff u).mpr (h l e s u hl hs he)
    exact ⟨hfree, (s.driver.newUnit_isSome_iff u).mpr hfree⟩

def adcChannelCall (unit channel : Int) : AdcEvent := .channel ⟨none, unit, channel, none, false, false⟩

/-- Two channels of the first converter. -/
theorem adc_second_channel :
    ¬ ∀ es, UnitsFree (fun _ channel => 0 ≤ channel ∧ channel < 8) es := by
  intro h
  obtain ⟨hfree, -⟩ := h [adcChannelCall 1 0, adcChannelCall 1 3] [adcChannelCall 1 0] _ _ .unit1
    List.prefix_rfl rfl rfl
  exact hfree (by decide)

end CLIos
