import CLIos.Com.Handles

/-!
# Each driver object is released once

A handle of rmt.tx or hw.adc.ch forgets an object when it releases it.  A handle
of i2c.bus, i2c.dev or spi.dev does not, so a method called after `close` or
`remove` passes the released object to the driver; a device also passes its bus.
-/

namespace CLIos

open Resources Runs

/-- The part whose pointer a handle keeps for good. -/
def PeriphHandle.keeps : PeriphHandle → Option PeriphPart
  | .i2cBus => some .bus
  | .i2cDev _ | .spiDev => some .device
  | .rmtTx _ _ | .adcCh _ _ _ => none

/-- The parts whose pointers are not NULL, in a handle that clears them. -/
def PeriphHandle.stores : PeriphHandle → PeriphPart → Bool
  | .rmtTx enc _, .encoder => enc
  | .rmtTx _ ch, .channel => ch
  | .adcCh unit _ _, .unit => unit
  | .adcCh _ cali _, .cali => cali
  | _, _ => false

/-- The method gets as far as its driver call. -/
def PeriphMethod.reaches : PeriphMethod → Bool
  | .i2cBusAddDev badArgument _ | .i2cDevTx badArgument _ => badArgument.isNone
  | .i2cDevRx t | .i2cDevWrrd t | .spiDevTxrx t => t.badArgument.isNone && t.allocated
  | _ => true

/-- Neither the handle `k` nor the bus of a device is spent. -/
def PeriphHandle.Free (spent : List Nat) (k : Nat) : PeriphHandle → Prop
  | .i2cBus | .spiDev => k ∉ spent
  | .i2cDev bus => k ∉ spent ∧ bus ∉ spent
  | .rmtTx _ _ | .adcCh _ _ _ => True

namespace Periph

/-- No object was released twice, or passed to the driver after its release. -/
def ReleasedOnce (s : Periph) : Prop := s.ledger.Clean

/-- No method reaches the driver whose handle, or the bus of it, is spent. -/
def Usable (s : Periph) : PeriphEvent → Prop
  | .method k m => m.reaches = true →
      ∀ h, s.handles[k]? = some h → h.typeName = m.typeName → h.Free s.spent k
  | _ => True

end Periph

namespace PeriphHandle

/-! ## What one method does -/

theorem outcome_isSome_iff (k : Nat) (h : PeriphHandle) (m : PeriphMethod) :
    (h.outcome k m).isSome = true ↔ h.typeName = m.typeName := by
  cases h <;> cases m <;> simp [outcome, typeName, PeriphMethod.typeName]

/-- What every method of a handle keeps to. -/
structure Sane (k : Nat) (h : PeriphHandle) (o : PeriphOutcome) : Prop where
  own : ∀ r, .release r ∈ o.accesses → r.handle = k
  same : ∀ part, h.keeps = some part → o.handle = h
  cleared : h.keeps = none → o.handle.keeps = none ∧ o.spends = false
  spends : ∀ part, h.keeps = some part →
    o.accesses.count (.release ⟨k, part⟩) = o.spends.toNat
  stores : ∀ part, o.handle.stores part = true →
    h.stores part = true ∧ .release ⟨k, part⟩ ∉ o.accesses
  ordered : o.accesses.Pairwise fun a b => a ≠ .release b.resource
  used : h.keeps = none → ∀ a ∈ o.accesses,
    a.resource.handle = k ∧ h.stores a.resource.part = true
  made : ∀ h', o.made = some h' → h = .i2cBus ∧ h' = .i2cDev k

variable {k : Nat} {h : PeriphHandle}

theorem Sane.answer {o : PeriphOutcome} (hs : Sane k h o) (answer : Option PeriphAnswer) :
    Sane k h { o with answer := answer } :=
  ⟨hs.own, hs.same, hs.cleared, hs.spends, hs.stores, hs.ordered, hs.used, hs.made⟩

theorem sane_raises (h : PeriphHandle) (msg : String) : Sane k h (h.raises msg) where
  own := by simp [raises]
  same := fun _ _ => rfl
  cleared := fun hnone => ⟨hnone, rfl⟩
  spends := fun _ _ => rfl
  stores := fun _ hpart => ⟨hpart, by simp [raises]⟩
  ordered := List.Pairwise.nil
  used := by simp [raises]
  made := by simp [raises]

/-- A driver call, or several, that release nothing. -/
theorem sane_of_touch {part : PeriphPart} (hk : h.keeps = some part) (objects : List PeriphObject)
    (made : Option PeriphHandle) (answer : Option PeriphAnswer)
    (hmade : ∀ h', made = some h' → h = .i2cBus ∧ h' = .i2cDev k) :
    Sane k h ⟨h, objects.map .touch, false, made, answer⟩ := by
  have hno : ∀ r, Access.release r ∉ objects.map Access.touch := by
    intro r hr
    obtain ⟨x, -, hx⟩ := List.mem_map.mp hr
    cases hx
  refine ⟨fun r hr => absurd hr (hno r), fun _ _ => rfl, ?_, ?_, ?_, ?_, ?_, hmade⟩
  · simp [hk]
  · exact fun part _ => List.count_eq_zero_of_not_mem (hno _)
  · exact fun part hpart => ⟨hpart, hno _⟩
  · exact List.pairwise_map.mpr (List.pairwise_of_forall fun _ _ hab => by cases hab)
  · simp [hk]

theorem sane_transfer {part : PeriphPart} (hk : h.keeps = some part) (objects : List PeriphObject)
    (t : Transfer) : Sane k h (h.transfer objects t) := by
  unfold transfer
  split
  · exact sane_raises h _
  · split
    · exact sane_raises h _
    · exact sane_of_touch hk objects none _ (by simp)

theorem sane_i2cBusClose (refused : Bool) : Sane k i2cBus (fI2cBusClose k refused) := by
  cases refused <;> constructor <;> simp [fI2cBusClose, releasing, keeps, stores]

theorem sane_i2cDevRemove (bus : Nat) (refused : Bool) :
    Sane k (i2cDev bus) (fI2cDevRemove k bus refused) := by
  cases refused <;> constructor <;> simp [fI2cDevRemove, releasing, keeps, stores]

theorem sane_spiDevRemove (refused : Bool) : Sane k spiDev (fSpiDevRemove k refused) := by
  cases refused <;> constructor <;> simp [fSpiDevRemove, releasing, keeps, stores]

theorem stores_rmtTx_closed (part : PeriphPart) : (rmtTx false false).stores part = false := by
  cases part <;> rfl

theorem stores_adcCh_closed (enabled : Bool) (part : PeriphPart) :
    (adcCh false false enabled).stores part = false := by
  cases part <;> rfl

theorem sane_rmtTransmit (enc ch ok : Bool) : Sane k (rmtTx enc ch) (rmtTransmit k enc ch ok) := by
  cases enc <;> cases ch <;> constructor <;>
    simp [rmtTransmit, keeps, Access.resource] <;> simp [stores]

theorem sane_rmtClose (enc ch encRefused chRefused : Bool) :
    Sane k (rmtTx enc ch) (fClose k enc ch encRefused chRefused) := by
  cases enc <;> cases ch <;> cases encRefused <;> cases chRefused <;> constructor <;>
    simp [fClose, releasing, keeps, Access.resource, stores_rmtTx_closed] <;> simp [stores]

theorem sane_adcGc (unit cali enabled unitRefused caliRefused : Bool) :
    Sane k (adcCh unit cali enabled) (adcChannelGc k unit cali enabled unitRefused caliRefused) := by
  cases unit <;> cases cali <;> cases unitRefused <;> cases caliRefused <;> constructor <;>
    simp [adcChannelGc, releasing, keeps, Access.resource, stores_adcCh_closed] <;> simp [stores]

/-- A read uses the unit, and after it `objects` at most. -/
theorem sane_adcRead (unit cali enabled : Bool) (raw : Option Int)
    (use : Int → List (Access PeriphObject) × Option PeriphValue)
    (huse : ∀ i, ∀ a ∈ (use i).1, a = .touch ⟨k, .cali⟩ ∧ cali = true) :
    Sane k (adcCh unit cali enabled) (adcRead k unit cali enabled raw use) := by
  have hread : ∀ as answer, (∀ a ∈ as, a = .touch ⟨k, .unit⟩ ∧ unit = true ∨
      a = .touch ⟨k, .cali⟩ ∧ cali = true) →
      Sane k (adcCh unit cali enabled) ⟨adcCh unit cali enabled, as, false, none, answer⟩ := by
    intro as answer has
    have hno : ∀ r, .release r ∉ as := by
      intro r hr
      rcases has _ hr with ⟨h, -⟩ | ⟨h, -⟩ <;> cases h
    refine ⟨fun r hr => absurd hr (hno r), by simp [keeps], fun _ => ⟨rfl, rfl⟩, by simp [keeps],
      fun part hpart => ⟨hpart, hno _⟩, ?_, fun _ a ha => ?_, by simp⟩
    · refine List.pairwise_iff_forall_sublist.mpr fun {a b} hab hrel => ?_
      exact hno _ (hrel ▸ hab.subset List.mem_cons_self)
    · rcases has a ha with ⟨rfl, hset⟩ | ⟨rfl, hset⟩ <;> exact ⟨rfl, hset⟩
  unfold adcRead
  split
  · next raw =>
    refine hread _ _ fun a ha => ?_
    rcases List.mem_cons.mp ha with rfl | ha
    · exact Or.inl ⟨rfl, rfl⟩
    · exact Or.inr (huse raw a ha)
  · refine hread _ _ fun a ha => ?_
    split at ha
    · next hunit => exact Or.inl ⟨List.mem_singleton.mp ha, hunit⟩
    · cases ha

theorem sane_outcome {m : PeriphMethod} {o : PeriphOutcome} (ho : h.outcome k m = some o) :
    Sane k h o := by
  unfold outcome at ho
  split at ho <;> cases ho
  · exact sane_i2cBusClose _
  · unfold fI2cBusAddDev
    split
    · exact sane_raises _ _
    · split
      · exact sane_of_touch rfl [⟨k, .bus⟩] _ _ (by simp)
      · exact sane_of_touch rfl [⟨k, .bus⟩] _ _ (by simp)
  · next bus _ _ =>
    unfold fI2cDevTx
    split
    · exact sane_raises _ _
    · exact sane_of_touch rfl [⟨k, .device⟩, ⟨bus, .bus⟩] _ _ (by simp)
  · exact sane_transfer rfl _ _
  · exact sane_transfer rfl _ _
  · exact sane_i2cDevRemove _ _
  · exact sane_transfer rfl _ _
  · exact sane_spiDevRemove _
  · unfold fSendRaw
    split
    · exact sane_rmtTransmit _ _ _
    · split
      · exact sane_raises _ _
      · split
        · exact sane_raises _ _
        · split
          · exact sane_raises _ _
          · exact sane_rmtTransmit _ _ _
    · exact sane_raises _ _
  · exact sane_rmtClose _ _ _ _
  · exact sane_adcRead _ _ _ _ _ (by simp)
  · refine sane_adcRead _ _ _ _ _ fun _ a ha => ?_
    split at ha
    · split at ha
      · next hcali => exact ⟨List.mem_singleton.mp ha, hcali⟩
      · cases ha
    · cases ha
  · exact (sane_adcGc _ _ _ _ _).answer _
  · exact sane_adcGc _ _ _ _ _

/-- A method of a handle that keeps its pointer uses the object, and a device
its bus, if it reaches the driver at all. -/
theorem accesses_iff {m : PeriphMethod} {o : PeriphOutcome} {part : PeriphPart}
    (ho : h.outcome k m = some o) (hk : h.keeps = some part) (P : PeriphObject → Prop) :
    (∀ a ∈ o.accesses, P a.resource) ↔
      (m.reaches = true → P ⟨k, part⟩ ∧ ∀ bus, h = .i2cDev bus → P ⟨bus, .bus⟩) := by
  have htransfer : ∀ (h : PeriphHandle) (objects : List PeriphObject) (t : Transfer),
      (∀ a ∈ (h.transfer objects t).accesses, P a.resource) ↔
        ((t.badArgument.isNone && t.allocated) = true → ∀ x ∈ objects, P x) := by
    intro h objects t
    unfold transfer
    split
    · next hbad => simp [raises, hbad]
    · next hbad =>
      split
      · next hmem => simp [raises, hmem]
      · next hmem => simp [hbad, hmem, Access.resource]
  have hreleasing : ∀ (x : PeriphObject) (refused : Bool), (releasing x refused).resource = x := by
    intro x refused
    cases refused <;> rfl
  unfold outcome at ho
  split at ho <;> cases ho <;> cases hk
  · simp [fI2cBusClose, hreleasing, PeriphMethod.reaches]
  · unfold fI2cBusAddDev
    split
    · simp [raises, PeriphMethod.reaches]
    · split <;> simp [Access.resource, PeriphMethod.reaches]
  · unfold fI2cDevTx
    split
    · simp [raises, PeriphMethod.reaches]
    · simp [Access.resource, PeriphMethod.reaches]
  · exact (htransfer _ _ _).trans (by simp [PeriphMethod.reaches])
  · exact (htransfer _ _ _).trans (by simp [PeriphMethod.reaches])
  · have htouch : ∀ x : PeriphObject, (Access.touch x).resource = x := fun _ => rfl
    simp [fI2cDevRemove, hreleasing, htouch, PeriphMethod.reaches, and_comm]
  · exact (htransfer _ _ _).trans (by simp [PeriphMethod.reaches])
  · simp [fSpiDevRemove, hreleasing, PeriphMethod.reaches]

end PeriphHandle

namespace Periph

/-! ## Runs -/

structure Good (s : Periph) : Prop where
  clean : s.ledger.Clean
  /-- the object of a handle that keeps its pointer is released when it is spent -/
  kept : ∀ (k : Nat) (h : PeriphHandle) part, s.handles[k]? = some h → h.keeps = some part →
    s.ledger.releases ⟨k, part⟩ = if k ∈ s.spent then 1 else 0
  /-- a pointer that is not NULL names an object that is not released -/
  stored : ∀ (k : Nat) (h : PeriphHandle) part, s.handles[k]? = some h → h.stores part = true →
    s.ledger.releases ⟨k, part⟩ = 0
  bus : ∀ k bus : Nat, s.handles[k]? = some (PeriphHandle.i2cDev bus) →
    s.handles[bus]? = some PeriphHandle.i2cBus
  fresh : ∀ o : PeriphObject, s.handles.length ≤ o.handle → s.ledger.releases o = 0
  spent : ∀ k ∈ s.spent, k < s.handles.length

variable {s s' : Periph}

theorem Good.kept_eq_zero (hg : s.Good) {k : Nat} {h : PeriphHandle} {part : PeriphPart}
    (hh : s.handles[k]? = some h) (hk : h.keeps = some part) :
    s.ledger.releases ⟨k, part⟩ = 0 ↔ k ∉ s.spent := by
  rw [hg.kept k h part hh hk]
  split <;> simp [*]

/-- Usable are the methods that pass no released object to the driver. -/
theorem Good.usable_iff (hg : s.Good) {k : Nat} {h : PeriphHandle} {m : PeriphMethod}
    {o : PeriphOutcome} (hh : s.handles[k]? = some h) (ho : h.outcome k m = some o) :
    s.Usable (.method k m) ↔ ∀ a ∈ o.accesses, s.ledger.releases a.resource = 0 := by
  have htype : h.typeName = m.typeName :=
    (PeriphHandle.outcome_isSome_iff k h m).mp (by rw [ho]; rfl)
  have husable : s.Usable (.method k m) ↔ (m.reaches = true → h.Free s.spent k) := by
    constructor
    · intro hu hr
      exact hu hr h hh htype
    · intro hu hr h' hh' _
      obtain rfl : h = h' := Option.some.inj (hh.symm.trans hh')
      exact hu hr
  rw [husable]
  cases hk : h.keeps with
  | some part =>
    rw [PeriphHandle.accesses_iff ho hk fun r => s.ledger.releases r = 0]
    refine imp_congr_right fun _ => ?_
    rw [hg.kept_eq_zero hh hk]
    cases h with
    | i2cBus => simp [PeriphHandle.Free]
    | spiDev => simp [PeriphHandle.Free]
    | i2cDev bus =>
      have hbus : s.ledger.releases ⟨bus, .bus⟩ = 0 ↔ bus ∉ s.spent :=
        hg.kept_eq_zero (hg.bus k bus hh) rfl
      simp [PeriphHandle.Free, hbus]
    | rmtTx => cases hk
    | adcCh => cases hk
  | none =>
    refine iff_of_true (fun _ => ?_) fun a ha => ?_
    · cases h <;> first | exact trivial | cases hk
    · obtain ⟨hown, hst⟩ := (PeriphHandle.sane_outcome ho).used hk a ha
      have hzero := hg.stored k h a.resource.part hh hst
      rwa [← hown] at hzero

/-! ## The state after a method -/

theorem getElem?_append_toList {α : Type} {l : List α} {o : Option α} {j : Nat} {x : α}
    (h : (l ++ o.toList)[j]? = some x) : l[j]? = some x ∨ (j = l.length ∧ o = some x) := by
  by_cases hlt : j < l.length
  · rw [List.getElem?_append_left hlt] at h
    exact Or.inl h
  rw [List.getElem?_append_right (by omega)] at h
  cases o with
  | none => cases h
  | some y =>
    rw [Option.toList_some, List.getElem?_singleton] at h
    split at h
    · exact Or.inr ⟨by omega, h⟩
    · cases h

section
variable {k : Nat} {h : PeriphHandle} {o : PeriphOutcome}

theorem releases_apply (s : Periph) (k : Nat) (o : PeriphOutcome) (r : PeriphObject) :
    (s.apply k o).ledger.releases r = s.ledger.releases r + o.accesses.count (.release r) :=
  Ledger.releases_record s.ledger o.accesses r

/-- A method releases objects of its own handle only. -/
theorem releases_apply_of_ne (hs : PeriphHandle.Sane k h o) {r : PeriphObject} (hr : r.handle ≠ k) :
    (s.apply k o).ledger.releases r = s.ledger.releases r := by
  rw [releases_apply, List.count_eq_zero_of_not_mem fun hmem => hr (hs.own r hmem), Nat.add_zero]

theorem mem_spent_apply_of_ne {j : Nat} (hj : j ≠ k) :
    j ∈ (s.apply k o).spent ↔ j ∈ s.spent := by
  show j ∈ (if o.spends then k :: s.spent else s.spent) ↔ _
  split <;> simp [hj]

/-- A handle after the method is this one, another old one, or the one it makes. -/
theorem handles_apply_cases (hh : s.handles[k]? = some h) (hs : PeriphHandle.Sane k h o) {j : Nat}
    {h' : PeriphHandle} (hj : (s.apply k o).handles[j]? = some h') :
    (j = k ∧ h' = o.handle) ∨ (j ≠ k ∧ s.handles[j]? = some h') ∨
      (j = s.handles.length ∧ h = .i2cBus ∧ h' = .i2cDev k) := by
  have hj : (s.handles.set k o.handle ++ o.made.toList)[j]? = some h' := hj
  rcases getElem?_append_toList hj with hj | ⟨hj, hmade⟩
  · by_cases hjk : j = k
    · subst hjk
      rw [List.getElem?_set_self (List.getElem?_eq_some_iff.mp hh).1] at hj
      exact Or.inl ⟨rfl, (Option.some.inj hj).symm⟩
    · rw [List.getElem?_set_ne (Ne.symm hjk)] at hj
      exact Or.inr (Or.inl ⟨hjk, hj⟩)
  · rw [List.length_set] at hj
    exact Or.inr (Or.inr ⟨hj, hs.made h' hmade⟩)

/-- A handle that keeps its pointer after the method is the same as before it. -/
theorem handle_eq_of_keeps (hs : PeriphHandle.Sane k h o) {part : PeriphPart}
    (hk : o.handle.keeps = some part) : o.handle = h := by
  cases hh : h.keeps with
  | some part' => exact hs.same part' hh
  | none =>
    rw [(hs.cleared hh).1] at hk
    cases hk

theorem bus_apply (hh : s.handles[k]? = some h) (hs : PeriphHandle.Sane k h o) {b : Nat}
    (hb : s.handles[b]? = some PeriphHandle.i2cBus) :
    (s.apply k o).handles[b]? = some PeriphHandle.i2cBus := by
  have hlt := (List.getElem?_eq_some_iff.mp hb).1
  show (s.handles.set k o.handle ++ _)[b]? = _
  rw [List.getElem?_append_left (by rw [List.length_set]; exact hlt)]
  by_cases hbk : b = k
  · subst hbk
    obtain rfl : h = .i2cBus := Option.some.inj (hh.symm.trans hb)
    rw [List.getElem?_set_self hlt, hs.same .bus rfl]
  · rw [List.getElem?_set_ne (Ne.symm hbk)]
    exact hb

/-- A release by a handle that keeps its pointer is the first of its object. -/
theorem Good.kept_apply_self (hg : s.Good) (hh : s.handles[k]? = some h)
    (hs : PeriphHandle.Sane k h o) (hzero : ∀ a ∈ o.accesses, s.ledger.releases a.resource = 0)
    {part : PeriphPart} (hk : h.keeps = some part) :
    (s.apply k o).ledger.releases ⟨k, part⟩ = if k ∈ (s.apply k o).spent then 1 else 0 := by
  rw [releases_apply, hg.kept k h part hh hk, hs.spends part hk]
  show _ = if k ∈ (if o.spends then k :: s.spent else s.spent) then 1 else 0
  cases hsp : o.spends with
  | false => simp
  | true =>
    have hmem : Access.release ⟨k, part⟩ ∈ o.accesses := by
      apply List.count_pos_iff.mp
      rw [hs.spends part hk, hsp]
      decide
    have hnot : k ∉ s.spent := (hg.kept_eq_zero hh hk).mp (hzero _ hmem)
    simp [hnot]

/-- The handle after the last is new: nothing of it is released or spent. -/
theorem Good.unused (hg : s.Good) : s.handles.length ∉ s.spent := by
  intro hmem
  have := hg.spent _ hmem
  omega

/-- A method that passes no released object to the driver. -/
theorem Good.apply (hg : s.Good) (hh : s.handles[k]? = some h) (hs : PeriphHandle.Sane k h o)
    (hzero : ∀ a ∈ o.accesses, s.ledger.releases a.resource = 0) : (s.apply k o).Good := by
  have hlt : k < s.handles.length := (List.getElem?_eq_some_iff.mp hh).1
  have hlen : (s.apply k o).handles.length = s.handles.length + o.made.toList.length := by
    show (s.handles.set k o.handle ++ o.made.toList).length = _
    rw [List.length_append, List.length_set]
  refine ⟨(Ledger.clean_record_iff s.ledger o.accesses hg.clean hs.ordered).mpr hzero,
    fun j h' part hj hk => ?_, fun j h' part hj hst => ?_, fun j bus hj => ?_, fun r hr => ?_,
    fun j hj => ?_⟩
  · rcases handles_apply_cases hh hs hj with ⟨rfl, rfl⟩ | ⟨hjk, hj⟩ | ⟨rfl, -, rfl⟩
    · rw [handle_eq_of_keeps hs hk] at hk
      exact hg.kept_apply_self hh hs hzero hk
    · rw [releases_apply_of_ne hs hjk, hg.kept j h' part hj hk]
      simp only [mem_spent_apply_of_ne hjk]
    · have hne : s.handles.length ≠ k := by omega
      rw [releases_apply_of_ne hs hne, hg.fresh _ (Nat.le_refl _), if_neg]
      rw [mem_spent_apply_of_ne hne]
      exact hg.unused
  · rcases handles_apply_cases hh hs hj with ⟨rfl, rfl⟩ | ⟨hjk, hj⟩ | ⟨-, -, rfl⟩
    · obtain ⟨hst, hno⟩ := hs.stores part hst
      rw [releases_apply, hg.stored j h part hh hst, List.count_eq_zero_of_not_mem hno]
    · rw [releases_apply_of_ne hs hjk]
      exact hg.stored j h' part hj hst
    · cases part <;> cases hst
  · rcases handles_apply_cases hh hs hj with ⟨rfl, heq⟩ | ⟨-, hj⟩ | ⟨-, rfl, hmade⟩
    · have hk : o.handle.keeps = some .device := congrArg PeriphHandle.keeps heq.symm
      have hsame := handle_eq_of_keeps hs hk
      rw [← heq] at hsame
      apply bus_apply hh hs
      apply hg.bus j
      rw [hh, ← hsame]
    · exact bus_apply hh hs (hg.bus j bus hj)
    · cases hmade
      exact bus_apply hh hs hh
  · rw [releases_apply_of_ne hs (by omega)]
    exact hg.fresh r (by omega)
  · by_cases hjk : j = k
    · omega
    · have := hg.spent j ((mem_spent_apply_of_ne hjk).mp hj)
      omega

end

/-- A constructed handle is no device of a bus. -/
theorem Good.new {h : PeriphHandle} (hg : s.Good) (hnodev : ∀ bus, h ≠ .i2cDev bus) :
    Good { s with handles := s.handles ++ [h] } := by
  have hold : ∀ {j : Nat} {h' : PeriphHandle}, (s.handles ++ [h])[j]? = some h' →
      s.handles[j]? = some h' ∨ (j = s.handles.length ∧ some h = some h') :=
    fun hj => getElem?_append_toList (o := some h) hj
  refine ⟨hg.clean, fun j h' part hj hk => ?_, fun j h' part hj hst => ?_, fun j bus hj => ?_,
    fun r hr => ?_, fun j hj => ?_⟩
  · rcases hold hj with hj | ⟨rfl, -⟩
    · exact hg.kept j h' part hj hk
    · show s.ledger.releases _ = _
      rw [hg.fresh _ (Nat.le_refl _), if_neg hg.unused]
  · rcases hold hj with hj | ⟨rfl, -⟩
    · exact hg.stored j h' part hj hst
    · exact hg.fresh _ (Nat.le_refl _)
  · rcases hold hj with hj | ⟨-, heq⟩
    · have hb := hg.bus j bus hj
      show (s.handles ++ [h])[bus]? = _
      rw [List.getElem?_append_left (List.getElem?_eq_some_iff.mp hb).1]
      exact hb
    · exact absurd (Option.some.inj heq) (hnodev bus)
  · have hr : (s.handles ++ [h]).length ≤ r.handle := hr
    rw [List.length_append] at hr
    exact hg.fresh r (by omega)
  · have := hg.spent j hj
    show j < (s.handles ++ [h]).length
    rw [List.length_append]
    omega

theorem Good.congr (hg : s.Good) (collected : List Nat) (aborted : Bool) :
    Good { s with collected := collected, aborted := aborted } :=
  ⟨hg.clean, hg.kept, hg.stored, hg.bus, hg.fresh, hg.spent⟩

theorem step_spec {e : PeriphEvent} (hg : s.Good) (hs : s.step e = some s') :
    (s.Usable e → s'.Good) ∧ (s'.ReleasedOnce → s.Usable e) := by
  simp only [step, Option.ite_none_left_eq_some] at hs
  obtain ⟨-, hs⟩ := hs
  cases e with
  | new c ok =>
    cases hs
    refine ⟨fun _ => ?_, fun _ => trivial⟩
    unfold stepNew
    split
    · exact hg.new fun bus => by cases c <;> simp [PeriphConstructor.handle]
    · exact hg.congr s.collected true
  | method k m =>
    obtain ⟨h, hh, hs⟩ := Option.bind_eq_some_iff.mp hs
    simp only [Option.ite_none_left_eq_some] at hs
    obtain ⟨-, hs⟩ := hs
    cases ho : h.outcome k m with
    | none =>
      simp only [ho, Option.ite_none_right_eq_some] at hs
      obtain ⟨-, hs⟩ := hs
      cases hs
      refine ⟨fun _ => hg, fun _ _ h' hh' htype => ?_⟩
      obtain rfl : h = h' := Option.some.inj (hh.symm.trans hh')
      have hsome := (PeriphHandle.outcome_isSome_iff k h m).mpr htype
      rw [ho] at hsome
      cases hsome
    | some o =>
      simp only [ho] at hs
      cases hs
      have hsane := PeriphHandle.sane_outcome ho
      rw [hg.usable_iff hh ho]
      exact ⟨hg.apply hh hsane,
        (Ledger.clean_record_iff s.ledger o.accesses hg.clean hsane.ordered).mp⟩
  | collect k unitRefused caliRefused =>
    refine ⟨fun _ => ?_, fun _ => trivial⟩
    obtain ⟨h, hh, hs⟩ := Option.bind_eq_some_iff.mp hs
    simp only [Option.ite_none_left_eq_some] at hs
    obtain ⟨-, hs⟩ := hs
    split at hs
    · next unit cali enabled =>
      cases hs
      have hgc : PeriphHandle.outcome k (.adcCh unit cali enabled) (.adcGc unitRefused caliRefused) =
          some (PeriphHandle.adcChannelGc k unit cali enabled unitRefused caliRefused) := rfl
      have hzero := (hg.usable_iff hh hgc).mp fun _ h' hh' _ => by
        rw [← Option.some.inj (hh.symm.trans hh')]
        trivial
      exact (hg.apply hh (PeriphHandle.sane_outcome hgc) hzero).congr _ _
    · cases hs
      exact hg.congr _ _

end Periph

/-- **Release.**  Every driver object is released at most once and not used
afterwards in exactly the runs that call no method of an I2C or SPI handle, as
far as the driver, once it or its bus was released. -/
theorem released_once_iff (es : List PeriphEvent) :
    periph.Always Periph.ReleasedOnce es ↔ periph.Along Periph.Usable es := by
  apply Machine.always_iff_along (I := Periph.Good)
  · refine ⟨⟨fun _ => Nat.zero_le 1, rfl⟩, ?_, ?_, ?_, fun _ _ => rfl, ?_⟩ <;>
      simp [periph]
  · exact fun s hg => hg.clean
  · exact fun s e s' hg hs => Periph.step_spec hg hs

/-- A bus that is closed twice. -/
theorem bus_released_twice : ¬ ∀ es, periph.Always Periph.ReleasedOnce es := by
  intro h
  have hrun : ∃ s, periph.run [.new .i2cBusNew true, .method 0 (.i2cBusClose false),
      .method 0 (.i2cBusClose false)] = some s ∧ s.ledger.releases ⟨0, .bus⟩ = 2 := ⟨_, rfl, rfl⟩
  obtain ⟨s, hs, htwice⟩ := hrun
  have hone := (h _ _ s List.prefix_rfl hs).1 ⟨0, .bus⟩
  omega

end CLIos
