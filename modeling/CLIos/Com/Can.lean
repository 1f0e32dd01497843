import CLIos.Lib.CArray
import CLIos.Lib.LuaApi
import Mathlib.Data.List.TakeDrop

/-!
# CAN: a frame sent and received

`F_CAN_TX` and `F_CAN_RX` of components/COM/com_can.c.  The driver makes a frame
of a `twai_message_t`, and delivers a frame as one.  A frame without the extended
flag carries 11 identifier bits; a received length code is taken as it is, up to
15, and bytes that the frame does not set are whatever was there.

The sender narrows the identifier, never sets the extended flag and keeps eight
bytes; the receiver reads as many bytes as the length code says.
-/

namespace CLIos

open CMem LuaApi

namespace Can

/-- `twai_message_t` -/
structure Message where
  extd : Bool
  rtr : Bool
  identifier : Nat
  dataLengthCode : Nat
  data : CArray Char 8

/-- A frame on the bus. -/
structure Frame where
  extended : Bool
  remote : Bool
  identifier : Nat
  dlc : Nat
  data : List Char
  identifier_lt : identifier < if extended then 536870912 else 2048
  dlc_le : dlc ≤ 15
  length_data : data.length = if remote then 0 else min dlc 8

/-- The frame that the driver sends for a message. -/
def Message.onBus (m : Message) : Frame where
  extended := m.extd
  remote := m.rtr
  identifier := m.identifier % if m.extd then 536870912 else 2048
  dlc := m.dataLengthCode % 16
  data := if m.rtr then [] else m.data.first (min (m.dataLengthCode % 16) 8)
  identifier_lt := Nat.mod_lt _ (by split <;> decide)
  dlc_le := by omega
  length_data := by
    split
    · rfl
    · exact m.data.length_first _ (Nat.min_le_right _ _)

theorem Frame.length_le (f : Frame) : f.data.length ≤ 8 := by
  rw [f.length_data]
  split
  · exact Nat.zero_le 8
  · exact Nat.min_le_right _ _

/-- The message that the driver delivers for a frame, `rest` what was in it. -/
def Frame.deliver (f : Frame) (rest : CArray Char 8) : Message where
  extd := f.extended
  rtr := f.remote
  identifier := f.identifier
  dataLengthCode := f.dlc
  data := ⟨f.data ++ rest.cells.drop f.data.length, by
    have := f.length_le
    rw [List.length_append, List.length_drop, rest.size]
    omega⟩

structure TxRun where
  /-- the frame, if the driver accepts the message -/
  bus : Option Frame
  /-- the number of the argument that is refused, and `none` if a check ends the firmware -/
  answer : Option (Except Nat Bool)

/-- `ok` is whether `twai_transmit` returns `ESP_OK`. -/
def fCanTx (N : Integers) (T : NumberTexts) (ok : Bool) (id data : Value) : Option TxRun :=
  match N.checkInteger id with
  | none => some ⟨none, some (.error 2)⟩
  | some id =>
    match T.optString data [] with
    | none => some ⟨none, some (.error 3)⟩
    | some data =>
      let dlc := if 8 < data.length then 8 else data.length
      ((CArray.fill 8 '\x00').memcpy 0 (data.take dlc)).map fun bytes =>
      let m : Message := ⟨false, false, toUint32 id, dlc, bytes⟩
      if ok then ⟨some m.onBus, some (.ok true)⟩ else ⟨none, none⟩

inductive RxAnswer where
  | nothing
  | frame (identifier : Int) (data : List Char)

/-- `received` is what `twai_receive` delivers. -/
def fCanRx (received : Option Message) : Option RxAnswer :=
  match received with
  | none => some .nothing
  | some m => (m.data.read m.dataLengthCode).map fun s => .frame m.identifier s

/-- The call is refused, or puts a frame on the bus that a peer returns as the
same identifier and the same data. -/
def TxFaithful (N : Integers) (T : NumberTexts) (ok : Bool) (id : Int) (data : List Char) : Prop :=
  ∃ run, fCanTx N T ok (.integer id) (.string data) = some run ∧
    ((∃ arg, run.answer = some (.error arg)) ∨
      ∃ f, run.bus = some f ∧ ∀ rest, fCanRx (some (f.deliver rest)) = some (.frame id data))

/-- Only bytes of the frame are returned, eight at most. -/
def RxFaithful (f : Frame) (rest : CArray Char 8) : Prop :=
  ∃ id s, fCanRx (some (f.deliver rest)) = some (.frame id s) ∧ s <+: f.data ∧ s.length ≤ 8

/-! ## Receiving -/

theorem fCanRx_deliver (f : Frame) (rest : CArray Char 8) :
    fCanRx (some (f.deliver rest)) =
      if f.dlc ≤ 8 then some (.frame f.identifier ((f.data ++ rest.cells.drop f.data.length).take f.dlc))
      else none := by
  unfold fCanRx CArray.read
  show Option.map _ (if f.dlc ≤ 8 then _ else _) = _
  split <;> rfl

/-- A data frame of eight bytes at most. -/
theorem fCanRx_data (f : Frame) (rest : CArray Char 8) (hdlc : f.dlc ≤ 8)
    (hremote : f.remote = true → f.dlc = 0) :
    fCanRx (some (f.deliver rest)) = some (.frame f.identifier f.data) := by
  have hlen : f.data.length = f.dlc := by
    have := f.length_data
    split at this
    · next hr => rw [this, hremote hr]
    · omega
  rw [fCanRx_deliver, if_pos hdlc, ← hlen, List.take_left]

theorem rxFaithful_iff (f : Frame) (rest : CArray Char 8) :
    RxFaithful f rest ↔ f.dlc ≤ 8 ∧ (f.remote = true → f.dlc = 0) := by
  constructor
  · rintro ⟨id, s, hs, hprefix, -⟩
    rw [fCanRx_deliver] at hs
    split at hs
    · next hdlc =>
      refine ⟨hdlc, fun hremote => ?_⟩
      have hlen := f.length_data
      rw [if_pos hremote] at hlen
      cases hs
      have hle := hprefix.length_le
      rw [List.length_take, List.length_append, List.length_drop, rest.size] at hle
      omega
    · cases hs
  · rintro ⟨hdlc, hremote⟩
    exact ⟨f.identifier, f.data, fCanRx_data f rest hdlc hremote, List.prefix_rfl, f.length_le⟩

/-! ## Sending -/

/-- The frame that is sent for a message of `F_CAN_TX`, as a peer receives it. -/
theorem fCanRx_onBus (id n : Nat) (bytes rest : CArray Char 8) (hn : n ≤ 8) :
    fCanRx (some ((Message.onBus ⟨false, false, id, n, bytes⟩).deliver rest)) =
      some (.frame (id % 2048 : Nat) (bytes.first n)) := by
  have hmod : n % 16 = n := by omega
  rw [fCanRx_data _ rest (show n % 16 ≤ 8 by omega) (fun h => Bool.noConfusion h)]
  show some (RxAnswer.frame _ (bytes.first (min (n % 16) 8))) = _
  rw [hmod, Nat.min_eq_left hn]
  rfl

/-- What `F_CAN_TX` sends. -/
theorem fCanTx_sent (N : Integers) (T : NumberTexts) (ok : Bool) (id : Int) (data : List Char) :
    ∃ bytes, bytes.first (min data.length 8) = data.take 8 ∧
      fCanTx N T ok (.integer id) (.string data) =
        some (if ok then
          ⟨some (Message.onBus ⟨false, false, toUint32 id, min data.length 8, bytes⟩), some (.ok true)⟩
        else ⟨none, none⟩) := by
  have hdlc : (if 8 < data.length then 8 else data.length) = min data.length 8 := by
    split <;> omega
  have hlen : (data.take (min data.length 8)).length = min data.length 8 := by
    rw [List.length_take]
    omega
  obtain ⟨bytes, hbytes⟩ := (CArray.memcpy_eq_some_iff (CArray.fill 8 '\x00') 0
    (data.take (min data.length 8))).mpr (by omega)
  refine ⟨bytes, ?_, ?_⟩
  · have hfirst := CArray.first_memcpy hbytes
    rw [Nat.zero_add, hlen, CArray.first_zero, List.nil_append] at hfirst
    rw [hfirst, List.take_eq_take_iff]
    omega
  · unfold fCanTx
    show Option.map _ ((CArray.fill 8 '\x00').memcpy 0 (data.take _)) = _
    simp only [hdlc, hbytes, Option.map_some]

theorem toUint32_identifier (id : Int) :
    ((toUint32 id % 2048 : Nat) : Int) = id ↔ 0 ≤ id ∧ id < 2048 := by
  unfold toUint32
  omega

theorem txFaithful_iff (N : Integers) (T : NumberTexts) (ok : Bool) (id : Int) (data : List Char) :
    TxFaithful N T ok id data ↔ ok = true ∧ 0 ≤ id ∧ id < 2048 ∧ data.length ≤ 8 := by
  obtain ⟨bytes, hbytes, hrun⟩ := fCanTx_sent N T ok id data
  unfold TxFaithful
  rw [hrun, ← and_assoc (a := 0 ≤ id), ← toUint32_identifier, ← List.take_eq_self_iff, ← hbytes]
  cases ok with
  | false =>
    refine iff_of_false ?_ fun h => Bool.noConfusion h.1
    rintro ⟨run, heq, ⟨arg, harg⟩ | ⟨f, hf, -⟩⟩
    · cases heq
      cases harg
    · cases heq
      cases hf
  | true =>
    have hreceived := fun rest =>
      fCanRx_onBus (toUint32 id) (min data.length 8) bytes rest (Nat.min_le_right _ _)
    constructor
    · rintro ⟨run, heq, ⟨arg, harg⟩ | ⟨f, hf, hpeer⟩⟩
      · cases heq
        cases harg
      · cases heq
        cases hf
        have hsame := (hreceived (CArray.fill 8 '\x00')).symm.trans (hpeer _)
        rw [Option.some.injEq, RxAnswer.frame.injEq] at hsame
        exact ⟨rfl, hsame⟩
    · rintro ⟨-, hid, hdata⟩
      refine ⟨_, rfl, Or.inr ⟨_, rfl, fun rest => ?_⟩⟩
      rw [hreceived rest, hid, hdata]

/-- **CAN frames.**  A frame that is sent comes back exactly if the driver takes
it, the identifier has 11 bits and there are eight bytes at most; what is
received belongs to the frame exactly if the length code is at most 8, and 0 in a
remote request. -/
theorem can_frames_iff (N : Integers) (T : NumberTexts) (ok : Bool) (id : Int) (data : List Char)
    (f : Frame) (rest : CArray Char 8) :
    (TxFaithful N T ok id data ↔ ok = true ∧ 0 ≤ id ∧ id < 2048 ∧ data.length ≤ 8) ∧
      (RxFaithful f rest ↔ f.dlc ≤ 8 ∧ (f.remote = true → f.dlc = 0)) :=
  ⟨txFaithful_iff N T ok id data, rxFaithful_iff f rest⟩

/-- A data frame of length code 9. -/
def longFrame : Frame where
  extended := false
  remote := false
  identifier := 1
  dlc := 9
  data := "abcdefgh".toList
  identifier_lt := by decide
  dlc_le := by decide
  length_data := by decide

theorem can_overread : ¬ ∀ (N : Integers) (T : NumberTexts),
    (∀ id data, TxFaithful N T true id data) ∧ ∀ f rest, RxFaithful f rest := by
  intro h
  obtain ⟨id, s, hs, -⟩ :=
    (h ⟨fun _ => none, fun _ => none⟩ ⟨fun _ => [], fun _ => true⟩).2 longFrame
      (CArray.fill 8 '\x00')
  cases hs

end Can

end CLIos
