import Mathlib.Data.List.Basic
import Mathlib.Logic.Function.Basic

/-!
# A broadcast bus

Stations on a bus that carries one message at a time: what a station transmits, all
others on the bus get at once, so that there is one order of messages (`log`).  A
station has a queue of messages to transmit and one of messages that came in, each
of bounded length; what comes in when the queue is full is lost.  Stations come and
go, and come back with empty queues.

What a station has got since it came is, in order and once each, a part of what the
others have transmitted, and all of it if it lost nothing; what it has accepted is
what it has transmitted, in order, and what still waits.
-/

namespace Broadcast

structure Station (ι α : Type) where
  /-- the length of the log when it came -/
  since : Nat
  outbox : List α
  inbox : List (ι × α)
  accepted : List α
  delivered : List (ι × α)
  lost : Nat

structure Bus (ι α : Type) where
  log : List (ι × α)
  station : ι → Option (Station ι α)

variable {ι α : Type} [DecidableEq ι]

namespace Station

def receive (inSize : Nat) (st : Station ι α) (m : ι × α) : Station ι α :=
  if st.inbox.length < inSize then { st with inbox := st.inbox ++ [m] }
  else { st with lost := st.lost + 1 }

end Station

namespace Bus

def empty : Bus ι α := ⟨[], fun _ => none⟩

def join (B : Bus ι α) (i : ι) : Bus ι α :=
  { B with station := Function.update B.station i (some ⟨B.log.length, [], [], [], [], 0⟩) }

def leave (B : Bus ι α) (i : ι) : Bus ι α :=
  { B with station := Function.update B.station i none }

/-- The station takes the message, if there is room. -/
def accept (outSize : Nat) (B : Bus ι α) (i : ι) (a : α) : Option (Bus ι α) :=
  (B.station i).bind fun st =>
  if st.outbox.length < outSize then
    some { B with
      station := Function.update B.station i (some { st with
        outbox := st.outbox ++ [a], accepted := st.accepted ++ [a] }) }
  else none

/-- The station transmits its first message to the others. -/
def transmit (inSize : Nat) (B : Bus ι α) (i : ι) : Option (Bus ι α) :=
  (B.station i).bind fun st =>
  match st.outbox with
  | [] => none
  | a :: outbox => some {
      log := B.log ++ [(i, a)]
      station := Function.update (fun j => (B.station j).map fun st => st.receive inSize (i, a)) i
        (some { st with outbox := outbox }) }

/-- The station's user takes the first message that came in. -/
def deliver (B : Bus ι α) (i : ι) : Option (Bus ι α) :=
  (B.station i).bind fun st =>
  match st.inbox with
  | [] => none
  | m :: inbox => some { B with
      station := Function.update B.station i (some { st with
        inbox := inbox, delivered := st.delivered ++ [m] }) }

end Bus

/-! ## What a station has to do with the log -/

/-- What `i` transmits. -/
def said (i : ι) (log : List (ι × α)) : List α :=
  (log.filter fun m => decide (m.1 = i)).map Prod.snd

/-- What comes from others than `i`. -/
def heard (i : ι) (log : List (ι × α)) : List (ι × α) :=
  log.filter fun m => decide (m.1 ≠ i)

theorem said_concat (i j : ι) (a : α) (log : List (ι × α)) :
    said i (log ++ [(j, a)]) = said i log ++ if j = i then [a] else [] := by
  unfold said
  rw [List.filter_append, List.map_append]
  by_cases h : j = i
  · simp [h]
  · simp [h]

theorem heard_concat (i : ι) (m : ι × α) (log : List (ι × α)) :
    heard i (log ++ [m]) = heard i log ++ if m.1 = i then [] else [m] := by
  unfold heard
  rw [List.filter_append]
  by_cases h : m.1 = i
  · simp [h]
  · simp [h]

/-- `since` is in the log, and the queues and counts fit what came after. -/
structure Station.Fits (st : Station ι α) (i : ι) (log : List (ι × α)) : Prop where
  since : st.since ≤ log.length
  accepted : st.accepted = said i (log.drop st.since) ++ st.outbox
  sublist : (st.delivered ++ st.inbox).Sublist (heard i (log.drop st.since))
  count : (st.delivered ++ st.inbox).length + st.lost = (heard i (log.drop st.since)).length

/-- Who lost nothing has got all that the others transmitted. -/
theorem Station.Fits.complete {st : Station ι α} {i : ι} {log : List (ι × α)} (h : st.Fits i log)
    (hlost : st.lost = 0) : st.delivered ++ st.inbox = heard i (log.drop st.since) := by
  have hcount := h.count
  rw [hlost, Nat.add_zero] at hcount
  exact h.sublist.eq_of_length hcount

/-- Two stations get the messages of third ones in one order: the one that came
later has got the last part of what the other has. -/
theorem Station.Fits.agree {st st' : Station ι α} {i j : ι} {log : List (ι × α)}
    (h : st.Fits i log) (h' : st'.Fits j log) (hlost : st.lost = 0) (hlost' : st'.lost = 0)
    (hle : st.since ≤ st'.since) :
    heard i (st'.delivered ++ st'.inbox) <:+ heard j (st.delivered ++ st.inbox) := by
  rw [h.complete hlost, h'.complete hlost']
  have hsuffix : log.drop st'.since <:+ log.drop st.since := by
    obtain ⟨n, hn⟩ := Nat.exists_eq_add_of_le hle
    rw [hn, ← List.drop_drop]
    exact List.drop_suffix n _
  unfold heard
  rw [List.filter_comm]
  exact (hsuffix.filter _).filter _

def Bus.Fits (B : Bus ι α) : Prop := ∀ i st, B.station i = some st → st.Fits i B.log

namespace Bus

variable {B B' : Bus ι α} {i : ι}

theorem fits_empty : (empty : Bus ι α).Fits := fun i st h => by cases h

/-- One station changes, and the log does not. -/
theorem Fits.update (h : B.Fits) (new : Option (Station ι α))
    (hnew : ∀ st, new = some st → st.Fits i B.log) :
    Fits { B with station := Function.update B.station i new } := by
  intro j st hj
  by_cases hji : j = i
  · subst hji
    exact hnew st ((Function.update_self j new B.station).symm.trans hj)
  · exact h j st ((Function.update_of_ne hji new B.station).symm.trans hj)

theorem Fits.join (h : B.Fits) : (B.join i).Fits := by
  refine h.update _ fun st hst => ?_
  cases hst
  refine ⟨Nat.le_refl _, ?_, ?_, ?_⟩ <;> simp [said, heard]

theorem Fits.leave (h : B.Fits) : (B.leave i).Fits := h.update _ fun st hst => by cases hst

theorem Fits.accept (h : B.Fits) {outSize : Nat} {a : α} (hs : B.accept outSize i a = some B') :
    B'.Fits := by
  obtain ⟨st, hst, hs⟩ := Option.bind_eq_some_iff.mp hs
  obtain ⟨-, hs⟩ := Option.ite_none_right_eq_some.mp hs
  cases hs
  refine h.update _ fun st' hst' => ?_
  cases hst'
  have hfits := h i st hst
  refine ⟨hfits.since, ?_, hfits.sublist, hfits.count⟩
  show st.accepted ++ [a] = _ ++ (st.outbox ++ [a])
  rw [hfits.accepted, List.append_assoc]

theorem Fits.deliver (h : B.Fits) (hs : B.deliver i = some B') : B'.Fits := by
  obtain ⟨st, hst, hs⟩ := Option.bind_eq_some_iff.mp hs
  split at hs
  · cases hs
  · next m inbox hinbox =>
    cases hs
    refine h.update _ fun st' hst' => ?_
    cases hst'
    have hfits := h i st hst
    have hsame : (st.delivered ++ [m]) ++ inbox = st.delivered ++ st.inbox := by
      rw [hinbox, List.append_assoc]
      rfl
    refine ⟨hfits.since, hfits.accepted, ?_, ?_⟩
    · show ((st.delivered ++ [m]) ++ inbox).Sublist _
      rw [hsame]
      exact hfits.sublist
    · show ((st.delivered ++ [m]) ++ inbox).length + _ = _
      rw [hsame]
      exact hfits.count

end Bus

/-- Another station's message comes in, or is lost. -/
theorem Station.Fits.receive {st : Station ι α} {i : ι} {log : List (ι × α)} (h : st.Fits i log)
    (inSize : Nat) {m : ι × α} (hm : m.1 ≠ i) :
    (st.receive inSize m).Fits i (log ++ [m]) := by
  have hdrop : (log ++ [m]).drop st.since = log.drop st.since ++ [m] :=
    List.drop_append_of_le_length h.since
  have hheard : heard i ((log ++ [m]).drop st.since) = heard i (log.drop st.since) ++ [m] := by
    rw [hdrop, heard_concat, if_neg hm]
  have hsaid : said i ((log ++ [m]).drop st.since) = said i (log.drop st.since) := by
    rw [hdrop, said_concat, if_neg hm, List.append_nil]
  have hsince : st.since ≤ (log ++ [m]).length := by
    rw [List.length_append]
    exact Nat.le_add_right_of_le h.since
  have haccepted : st.accepted = said i ((log ++ [m]).drop st.since) ++ st.outbox := by
    rw [hsaid]
    exact h.accepted
  have hcount := h.count
  have hone : (heard i (log.drop st.since) ++ [m]).length =
      (heard i (log.drop st.since)).length + 1 := List.length_append
  unfold Station.receive
  split
  · refine ⟨hsince, haccepted, ?_, ?_⟩
    · show (st.delivered ++ (st.inbox ++ [m])).Sublist (heard i ((log ++ [m]).drop st.since))
      rw [hheard, ← List.append_assoc]
      exact h.sublist.append_right [m]
    · show (st.delivered ++ (st.inbox ++ [m])).length + st.lost =
        (heard i ((log ++ [m]).drop st.since)).length
      rw [hheard, hone, ← hcount, ← List.append_assoc]
      rw [List.length_append, List.length_singleton]
      exact Nat.add_right_comm _ _ _
  · refine ⟨hsince, haccepted, ?_, ?_⟩
    · show (st.delivered ++ st.inbox).Sublist (heard i ((log ++ [m]).drop st.since))
      rw [hheard]
      exact h.sublist.trans (List.sublist_append_left _ _)
    · show (st.delivered ++ st.inbox).length + (st.lost + 1) =
        (heard i ((log ++ [m]).drop st.since)).length
      rw [hheard, hone, ← hcount]
      rfl

/-- The station that transmits. -/
theorem Station.Fits.transmit {st : Station ι α} {i : ι} {log : List (ι × α)} (h : st.Fits i log)
    {a : α} {outbox : List α} (hout : st.outbox = a :: outbox) :
    Station.Fits { st with outbox := outbox } i (log ++ [(i, a)]) := by
  have hdrop : (log ++ [(i, a)]).drop st.since = log.drop st.since ++ [(i, a)] :=
    List.drop_append_of_le_length h.since
  have hheard : heard i ((log ++ [(i, a)]).drop st.since) = heard i (log.drop st.since) := by
    rw [hdrop, heard_concat, if_pos rfl, List.append_nil]
  refine ⟨?_, ?_, ?_, ?_⟩
  · rw [List.length_append]
    exact Nat.le_add_right_of_le h.since
  · show st.accepted = said i ((log ++ [(i, a)]).drop st.since) ++ outbox
    rw [hdrop, said_concat, if_pos rfl, h.accepted, hout, List.append_assoc]
    rfl
  · show (st.delivered ++ st.inbox).Sublist (heard i ((log ++ [(i, a)]).drop st.since))
    rw [hheard]
    exact h.sublist
  · show _ = (heard i ((log ++ [(i, a)]).drop st.since)).length
    rw [hheard]
    exact h.count

theorem Bus.Fits.transmit {B B' : Bus ι α} {i : ι} (h : B.Fits) {inSize : Nat}
    (hs : B.transmit inSize i = some B') : B'.Fits := by
  obtain ⟨st, hst, hs⟩ := Option.bind_eq_some_iff.mp hs
  split at hs
  · cases hs
  · next a outbox hout =>
    cases hs
    intro j st' hj
    have hj : Function.update (fun j => (B.station j).map fun st => st.receive inSize (i, a)) i
      (some { st with outbox := outbox }) j = some st' := hj
    rw [Function.update_apply] at hj
    split at hj
    · next hji =>
      cases hj
      rw [hji]
      exact (h i st hst).transmit hout
    · next hji =>
      obtain ⟨st₀, hst₀, rfl⟩ := Option.map_eq_some_iff.mp hj
      exact (h j st₀ hst₀).receive inSize (Ne.symm hji)

end Broadcast
