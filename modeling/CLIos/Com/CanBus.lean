import CLIos.Com.Can
import CLIos.Lib.Broadcast
import CLIos.Lib.Machine

/-!
# Devices on one CAN bus

The functions of components/COM/com_can.c on any number of devices that share a bus.
The driver of each has a queue of frames to send and one of frames received
(`CanDriver`); a frame is on the bus when another device acknowledges it.  There is
one driver on a device, whatever handles Lua code has: each call of `tx` or `rx` is
for it, and any handle stops it.

`sent` are the arguments of the `tx` calls that returned true, `received` what `rx`
returned, both since the driver was started; `meaning` is what a peer is to receive.
-/

namespace CLIos

open CMem LuaApi Runs Broadcast

namespace Can

inductive Timing where
  | kbits1000 | kbits800 | kbits250 | kbits500
deriving DecidableEq

/-- `TWAI_TIMING_CONFIG_..` for the `bitrate` -/
def timing (bitrate : Int) : Timing :=
  if bitrate = 1000 then .kbits1000
  else if bitrate = 800 then .kbits800
  else if bitrate = 250 then .kbits250
  else .kbits500

inductive StartAnswer where
  /-- the number of the argument that is refused -/
  | error (arg : Nat)
  /-- `ESP_ERROR_CHECK` -/
  | aborts
  | started (t : Timing)
deriving DecidableEq

/-- `luaL_optinteger` -/
def optInteger (N : Integers) (v : Value) (default : Int) : Option Int :=
  if v = .nil then some default else N.checkInteger v

/-- `ok` is whether `twai_driver_install` and `twai_start` return `ESP_OK`. -/
def lCanStart (N : Integers) (ok : Bool) (tx rx bitrate : Value) : StartAnswer :=
  match N.checkInteger tx with
  | none => .error 1
  | some _ =>
    match N.checkInteger rx with
    | none => .error 2
    | some _ =>
      match optInteger N bitrate 500 with
      | none => .error 3
      | some bitrate => if ok then .started (timing (toInt bitrate)) else .aborts

/-- The queues of the driver, and the timing of the bus. -/
structure CanDriver where
  txQueue : Nat
  rxQueue : Nat
  timing : Timing

end Can

open Can

structure CanNet (ι : Type) where
  bus : Bus ι Frame
  sent : ι → List (Value × Value)
  received : ι → List (Int × List Char)

inductive CanEvent (ι : Type) where
  /-- `accepted`: the driver takes the pins -/
  | start (i : ι) (tx rx bitrate : Value) (accepted : Bool)
  | tx (i : ι) (id data : Value)
  /-- `rest` is what is in the message that `twai_receive` fills -/
  | rx (i : ι) (rest : CArray Char 8)
  | stop (i : ι)
  /-- the first frame of `i` is on the bus, and `j` acknowledges it -/
  | frame (i j : ι)

namespace CanNet

variable {ι : Type} [DecidableEq ι]

section

variable (N : Integers) (T : NumberTexts) (D : CanDriver)

/-- After an `ESP_ERROR_CHECK` that fails the firmware starts again. -/
def restart (s : CanNet ι) (i : ι) : CanNet ι := { s with bus := s.bus.leave i }

/-- A bus has one bit timing: a start with another one is no step. -/
def onStart (s : CanNet ι) (i : ι) (tx rx bitrate : Value) (accepted : Bool) : Option (CanNet ι) :=
  match lCanStart N (accepted && (s.bus.station i).isNone) tx rx bitrate with
  | .error _ => some s
  | .aborts => some (s.restart i)
  | .started t =>
    if t = D.timing then
      some ⟨s.bus.join i, Function.update s.sent i [], Function.update s.received i []⟩
    else none

/-- The driver is running and its queue is not full, or soon is not. -/
def room (s : CanNet ι) (i : ι) : Bool :=
  (s.bus.station i).any fun st => decide (st.outbox.length < D.txQueue)

def onTx (s : CanNet ι) (i : ι) (id data : Value) : Option (CanNet ι) :=
  (fCanTx N T (s.room D i) id data).bind fun run =>
  match run.answer, run.bus with
  | some (.ok _), some f =>
    (s.bus.accept D.txQueue i f).map fun bus =>
      { s with bus := bus, sent := Function.update s.sent i (s.sent i ++ [(id, data)]) }
  | some _, _ => some s
  | none, _ => some (s.restart i)

/-- Without a driver, or when nothing came in, `rx` returns nil. -/
def onRx (s : CanNet ι) (i : ι) (rest : CArray Char 8) : Option (CanNet ι) :=
  match (s.bus.station i).bind fun st => st.inbox.head? with
  | none => some s
  | some m =>
    (fCanRx (some (m.2.deliver rest))).bind fun answer =>
    match answer with
    | .nothing => none
    | .frame id data =>
      (s.bus.deliver i).map fun bus =>
        { s with bus := bus, received := Function.update s.received i (s.received i ++ [(id, data)]) }

def onFrame (s : CanNet ι) (i j : ι) : Option (CanNet ι) :=
  if i ≠ j ∧ (s.bus.station j).isSome = true then
    (s.bus.transmit D.rxQueue i).map fun bus => { s with bus := bus }
  else none

def step (s : CanNet ι) : CanEvent ι → Option (CanNet ι)
  | .start i tx rx bitrate accepted => s.onStart N D i tx rx bitrate accepted
  | .tx i id data => s.onTx N T D i id data
  | .rx i rest => s.onRx i rest
  | .stop i => some { s with bus := s.bus.leave i }
  | .frame i j => s.onFrame D i j

end

end CanNet

def canNet (ι : Type) [DecidableEq ι] (N : Integers) (T : NumberTexts) (D : CanDriver) :
    Machine (CanNet ι) (CanEvent ι) where
  init := ⟨Bus.empty, fun _ => [], fun _ => []⟩
  step := CanNet.step N T D

namespace Can

/-- What a peer is to receive for `tx(id, data)`: 11 bits and eight bytes. -/
def meaning (N : Integers) (T : NumberTexts) (call : Value × Value) : Option (Int × List Char) :=
  (N.checkInteger call.1).bind fun id =>
  (T.optString call.2 []).map fun data => (id % 2048, data.take 8)

/-- What `rx` makes of a frame. -/
def Frame.seen (f : Frame) : Int × List Char := (f.identifier, f.data)

/-- A frame that is read whole. -/
def Frame.Plain (f : Frame) : Prop := f.remote = false ∧ f.dlc ≤ 8

theorem Frame.Plain.read {f : Frame} (h : f.Plain) (rest : CArray Char 8) :
    fCanRx (some (f.deliver rest)) = some (.frame f.identifier f.data) := by
  refine fCanRx_data f rest h.2 fun hremote => ?_
  rw [h.1] at hremote
  cases hremote

/-- The call by what its arguments are converted to. -/
theorem fCanTx_eq (N : Integers) (T : NumberTexts) (ok : Bool) (id data : Value) :
    fCanTx N T ok id data =
      match N.checkInteger id, T.optString data [] with
      | none, _ => some ⟨none, some (.error 2)⟩
      | some _, none => some ⟨none, some (.error 3)⟩
      | some id, some data => fCanTx N T ok (.integer id) (.string data) := by
  cases hid : N.checkInteger id with
  | none =>
    unfold fCanTx
    rw [hid]
  | some id' =>
    cases hdata : T.optString data [] with
    | none =>
      unfold fCanTx
      rw [hid]
      simp only [hdata]
    | some data' =>
      unfold fCanTx
      rw [hid]
      simp only [hdata]
      rfl

/-- A call that returns true has given the driver a frame with its meaning. -/
theorem fCanTx_meaning {N : Integers} {T : NumberTexts} {ok : Bool} {id data : Value} {run : TxRun}
    {b : Bool} {f : Frame} (h : fCanTx N T ok id data = some run) (hb : run.answer = some (.ok b))
    (hf : run.bus = some f) : f.Plain ∧ meaning N T (id, data) = some f.seen := by
  rw [fCanTx_eq] at h
  unfold meaning
  show _ ∧ (N.checkInteger id).bind _ = _
  cases hid : N.checkInteger id with
  | none =>
    rw [hid] at h
    cases h
    cases hb
  | some id' =>
    cases hdata : T.optString data [] with
    | none =>
      rw [hid, hdata] at h
      cases h
      cases hb
    | some data' =>
      rw [hid, hdata] at h
      obtain ⟨bytes, hbytes, hsent⟩ := fCanTx_sent N T ok id' data'
      cases ok with
      | false =>
        cases hsent.symm.trans h
        cases hb
      | true =>
        cases hsent.symm.trans h
        cases hf
        have hmod : min data'.length 8 % 16 = min data'.length 8 := by omega
        refine ⟨⟨rfl, ?_⟩, ?_⟩
        · show min data'.length 8 % 16 ≤ 8
          omega
        · have hseen : ((toUint32 id' % 2048 : Nat) : Int) = id' % 2048 := by
            unfold toUint32
            omega
          show some (id' % 2048, data'.take 8) =
            some (((toUint32 id' % 2048 : Nat) : Int), bytes.first (min (min data'.length 8 % 16) 8))
          rw [hseen, hmod, Nat.min_eq_left (Nat.min_le_right _ _), hbytes]

end Can

namespace CanNet

variable {ι : Type} {N : Integers} {T : NumberTexts} {D : CanDriver}

/-- What the calls on a device have to do with its station. -/
structure Books (N : Integers) (T : NumberTexts) (st : Station ι Frame) (calls : List (Value × Value))
    (results : List (Int × List Char)) : Prop where
  waiting : ∀ f ∈ st.outbox, f.Plain
  sent : calls.map (meaning N T) = st.accepted.map fun f => some f.seen
  received : results = st.delivered.map fun m => m.2.seen

theorem Books.receive {st : Station ι Frame} {calls : List (Value × Value)}
    {results : List (Int × List Char)} (h : Books N T st calls results) (m : ι × Frame) :
    Books N T (st.receive D.rxQueue m) calls results := by
  unfold Station.receive
  split <;> exact ⟨h.waiting, h.sent, h.received⟩

variable [DecidableEq ι] {s s' : CanNet ι} {i : ι}

/-- What a running device has sent and received. -/
structure Exchanged (N : Integers) (T : NumberTexts) (s : CanNet ι) (i : ι)
    (st : Station ι Frame) : Prop where
  /-- the frames on the bus and those that wait mean the calls, in order -/
  sent : (s.sent i).map (meaning N T) =
    (said i (s.bus.log.drop st.since) ++ st.outbox).map fun f => some f.seen
  received : s.received i = st.delivered.map fun m => m.2.seen
  /-- what it received came from others, in order and once each -/
  inOrder : (st.delivered ++ st.inbox).Sublist (heard i (s.bus.log.drop st.since))
  complete : st.lost = 0 → st.delivered ++ st.inbox = heard i (s.bus.log.drop st.since)
  /-- a device that was there before has received the frames of others in the same order -/
  agree : ∀ j st', s.bus.station j = some st' → st'.since ≤ st.since → st'.lost = 0 →
    st.lost = 0 → heard j (st.delivered ++ st.inbox) <:+ heard i (st'.delivered ++ st'.inbox)

structure Inv (N : Integers) (T : NumberTexts) (s : CanNet ι) : Prop where
  fits : s.bus.Fits
  plain : ∀ m ∈ s.bus.log, m.2.Plain
  books : ∀ i st, s.bus.station i = some st → Books N T st (s.sent i) (s.received i)

theorem Inv.exchanged (h : s.Inv N T) {st : Station ι Frame} (hst : s.bus.station i = some st) :
    s.Exchanged N T i st where
  sent := by rw [(h.books i st hst).sent, (h.fits i st hst).accepted]
  received := (h.books i st hst).received
  inOrder := (h.fits i st hst).sublist
  complete := (h.fits i st hst).complete
  agree := fun j st' hst' hle hlost' hlost =>
    (h.fits j st' hst').agree (h.fits i st hst) hlost' hlost hle

theorem inv_init : (canNet ι N T D).init.Inv N T where
  fits := Bus.fits_empty
  plain := fun m hm => by cases hm
  books := fun i st h => by cases h

/-- One device changes. -/
theorem Inv.update (h : s.Inv N T) (calls : List (Value × Value))
    (results : List (Int × List Char)) {new : Option (Station ι Frame)}
    (hfits : Bus.Fits { s.bus with station := Function.update s.bus.station i new })
    (hnew : ∀ st, new = some st → Books N T st calls results) :
    Inv N T ⟨{ s.bus with station := Function.update s.bus.station i new },
      Function.update s.sent i calls, Function.update s.received i results⟩ := by
  refine ⟨hfits, h.plain, fun j st hj => ?_⟩
  simp only [Function.update_apply] at hj ⊢
  by_cases hji : j = i
  · rw [if_pos hji] at hj ⊢
    rw [if_pos hji]
    exact hnew st hj
  · rw [if_neg hji] at hj ⊢
    rw [if_neg hji]
    exact h.books j st hj

theorem Inv.restart (h : s.Inv N T) (i : ι) : (s.restart i).Inv N T := by
  have hleft := h.update (i := i) (s.sent i) (s.received i) h.fits.leave
    fun st hst => by cases hst
  rw [Function.update_eq_self, Function.update_eq_self] at hleft
  exact hleft

theorem Inv.onStart (h : s.Inv N T) {tx rx bitrate : Value} {accepted : Bool}
    (hs : s.onStart N D i tx rx bitrate accepted = some s') : s'.Inv N T := by
  unfold CanNet.onStart at hs
  split at hs
  · cases hs
    exact h
  · cases hs
    exact h.restart i
  · split at hs
    · cases hs
      refine h.update _ _ h.fits.join fun st hst => ?_
      cases hst
      exact ⟨fun f hf => absurd hf List.not_mem_nil, rfl, rfl⟩
    · cases hs

theorem Inv.onTx (h : s.Inv N T) {id data : Value} (hs : s.onTx N T D i id data = some s') :
    s'.Inv N T := by
  obtain ⟨run, hrun, hs⟩ := Option.bind_eq_some_iff.mp hs
  split at hs
  · next f hanswer hbus =>
    obtain ⟨hplain, hmeaning⟩ := fCanTx_meaning hrun hanswer hbus
    obtain ⟨bus, haccept, rfl⟩ := Option.map_eq_some_iff.mp hs
    have hfits := h.fits.accept haccept
    obtain ⟨st, hst, haccept⟩ := Option.bind_eq_some_iff.mp haccept
    obtain ⟨-, haccept⟩ := Option.ite_none_right_eq_some.mp haccept
    cases haccept
    have hbooks := h.books i st hst
    have hnew := h.update (s.sent i ++ [(id, data)]) (s.received i) hfits
      fun st' hst' => ?_
    · rw [Function.update_eq_self] at hnew
      exact hnew
    · cases hst'
      refine ⟨fun g hg => ?_, ?_, hbooks.received⟩
      · rcases List.mem_append.mp hg with hg | hg
        · exact hbooks.waiting g hg
        · rw [List.mem_singleton.mp hg]
          exact hplain
      · rw [List.map_append, List.map_append, hbooks.sent]
        exact congrArg (_ ++ [·]) hmeaning
  · cases hs
    exact h
  · cases hs
    exact h.restart i

theorem Inv.onRx (h : s.Inv N T) {rest : CArray Char 8} (hs : s.onRx i rest = some s') :
    s'.Inv N T := by
  unfold CanNet.onRx at hs
  split at hs
  · cases hs
    exact h
  · next m hm =>
    obtain ⟨st, hst, hhead⟩ := Option.bind_eq_some_iff.mp hm
    obtain ⟨inbox, hinbox⟩ := List.head?_eq_some_iff.mp hhead
    -- what waits here is on the bus, and so it is read whole
    have hmem : m ∈ s.bus.log := by
      have hin : m ∈ st.delivered ++ st.inbox := by
        rw [hinbox]
        exact List.mem_append_right _ List.mem_cons_self
      have hheard := (h.fits i st hst).sublist.subset hin
      exact (List.drop_sublist _ _).subset (List.mem_of_mem_filter hheard)
    rw [(h.plain m hmem).read rest, Option.bind_some] at hs
    obtain ⟨bus, hdeliver, rfl⟩ := Option.map_eq_some_iff.mp hs
    have hfits := h.fits.deliver hdeliver
    obtain ⟨st', hst', hdeliver⟩ := Option.bind_eq_some_iff.mp hdeliver
    obtain rfl := Option.some.inj (hst.symm.trans hst')
    rw [hinbox] at hdeliver
    cases hdeliver
    have hbooks := h.books i st hst
    have hnew := h.update (s.sent i) (s.received i ++ [m.2.seen]) hfits
      fun st' hst' => ?_
    · rw [Function.update_eq_self] at hnew
      exact hnew
    · cases hst'
      refine ⟨hbooks.waiting, hbooks.sent, ?_⟩
      rw [hbooks.received, List.map_append]
      rfl

theorem Inv.onFrame (h : s.Inv N T) {j : ι} (hs : s.onFrame D i j = some s') : s'.Inv N T := by
  obtain ⟨-, hs⟩ := Option.ite_none_right_eq_some.mp hs
  obtain ⟨bus, htransmit, rfl⟩ := Option.map_eq_some_iff.mp hs
  have hfits := h.fits.transmit htransmit
  obtain ⟨st, hst, htransmit⟩ := Option.bind_eq_some_iff.mp htransmit
  split at htransmit
  · cases htransmit
  · next f outbox hout =>
    cases htransmit
    have hbooks := h.books i st hst
    have hwaiting := hbooks.waiting
    rw [hout] at hwaiting
    refine ⟨hfits, fun m hm => ?_, fun k st' hk => ?_⟩
    · rcases List.mem_append.mp hm with hm | hm
      · exact h.plain m hm
      · rw [List.mem_singleton.mp hm]
        exact hwaiting f List.mem_cons_self
    · simp only [Function.update_apply] at hk
      split at hk
      · next hki =>
        cases hk
        rw [hki]
        exact ⟨fun g hg => hwaiting g (List.mem_cons_of_mem f hg), hbooks.sent, hbooks.received⟩
      · obtain ⟨st₀, hst₀, rfl⟩ := Option.map_eq_some_iff.mp hk
        exact (h.books k st₀ hst₀).receive _

theorem Inv.step (h : s.Inv N T) {e : CanEvent ι} (hs : s.step N T D e = some s') :
    s'.Inv N T := by
  cases e with
  | start i tx rx bitrate accepted => exact h.onStart hs
  | tx i id data => exact h.onTx hs
  | rx i rest => exact h.onRx hs
  | stop i =>
    cases hs
    exact h.restart i
  | frame i j => exact h.onFrame hs

end CanNet

/-- **Devices on a bus.**  Whatever the devices do, as long as none is started with
another bit timing, and in whatever order frames get on the bus: what a device has on
the bus or waiting means the calls of `tx` that returned true, in order; what its `rx`
returned came from other devices, in the order of the bus and once each, and nothing is
missing unless the driver lost it; and two devices have received the frames of others
in the same order. -/
theorem can_network (ι : Type) [DecidableEq ι] (N : Integers) (T : NumberTexts) (D : CanDriver)
    (es : List (CanEvent ι)) :
    (canNet ι N T D).Always
      (fun s => ∀ i st, s.bus.station i = some st → s.Exchanged N T i st) es :=
  Machine.always_mono (I := CanNet.Inv N T) (fun _ hinv _ _ => hinv.exchanged)
    (Machine.always_of_step CanNet.inv_init (fun _ _ _ hinv hs => hinv.step hs) es)

/-- Nine bytes under an identifier of 12 bits, from one device to the other. -/
example : ((canNet Bool ⟨fun _ => none, fun _ => none⟩ ⟨fun _ => [], fun _ => true⟩
      ⟨5, 5, .kbits500⟩).run
    [.start true (.integer 4) (.integer 5) .nil true, .start false (.integer 4) (.integer 5) .nil true,
      .tx true (.integer 2049) (.string "123456789".toList), .frame true false,
      .rx false (CArray.fill 8 '?')]).map (fun s => s.received false) =
    some [(1, "12345678".toList)] := by decide

end CLIos
