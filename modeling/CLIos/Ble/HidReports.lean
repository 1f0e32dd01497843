import CLIos.Ble.Ble
import CLIos.Lib.HidDescriptor

/-!
# HID reports

`lua_ble_hid_send_key` and `lua_ble_hid_send_mouse` against `hid_report_map`
(components/BLE/ble_ble.c): what a host makes of the bytes that are sent.  Every
argument is narrowed to a byte, and what the map does not hold is lost: buttons
above three, a movement of -128, a key code above 101, keys after the sixth.
-/

namespace CLIos

open LuaApi

def hidReportMap : List Nat :=
  [0x05, 0x01, 0x09, 0x06, 0xA1, 0x01,
    0x85, 0x01,
    0x05, 0x07, 0x19, 0xE0, 0x29, 0xE7, 0x15, 0x00, 0x25, 0x01, 0x75, 0x01, 0x95, 0x08, 0x81, 0x02,
    0x95, 0x01, 0x75, 0x08, 0x81, 0x01,
    0x95, 0x06, 0x75, 0x08, 0x15, 0x00, 0x25, 0x65, 0x05, 0x07, 0x19, 0x00, 0x29, 0x65, 0x81, 0x00,
    0xC0,
    0x05, 0x01, 0x09, 0x02, 0xA1, 0x01,
    0x85, 0x02, 0x09, 0x01, 0xA1, 0x00,
    0x05, 0x09, 0x19, 0x01, 0x29, 0x03, 0x15, 0x00, 0x25, 0x01, 0x95, 0x03, 0x75, 0x01, 0x81, 0x02,
    0x95, 0x01, 0x75, 0x05, 0x81, 0x01,
    0x05, 0x01, 0x09, 0x30, 0x09, 0x31, 0x09, 0x38, 0x15, 0x81, 0x25, 0x7F, 0x75, 0x08, 0x95, 0x03,
    0x81, 0x06,
    0xC0, 0xC0]

/-- What a host reads of a report. -/
def hidRead (report : List Nat) : Option (List (Option Int)) :=
  (Hid.parse hidReportMap).bind fun fs => Hid.decode fs report

theorem hidReportMap_fields : Hid.parse hidReportMap = some
    [⟨1, 1, 8, 0, 1, false⟩, ⟨1, 8, 1, 0, 1, true⟩, ⟨1, 8, 6, 0, 101, false⟩,
      ⟨2, 1, 3, 0, 1, false⟩, ⟨2, 5, 1, 0, 1, true⟩, ⟨2, 8, 3, -127, 127, false⟩] := by
  decide +kernel

def modifierField : Hid.Field := ⟨1, 1, 8, 0, 1, false⟩

def keyField : Hid.Field := ⟨1, 8, 6, 0, 101, false⟩

def buttonField : Hid.Field := ⟨2, 1, 3, 0, 1, false⟩

def axisField : Hid.Field := ⟨2, 8, 3, -127, 127, false⟩

/-- The flags in the lowest bits of a byte. -/
def flags (n b : Nat) : List Int := (List.range n).map fun j => ((b / 2 ^ j % 2 : Nat) : Int)

theorem hidRead_mouse {b x y w : Nat} (h : ∀ d ∈ [b, x, y, w], d < 256) :
    hidRead [2, b, x, y, w] = some ((flags 3 b).map some ++ [x, y, w].map axisField.element) := by
  have hflags := Hid.flag_elements (f := buttonField) rfl rfl rfl b [x, y, w] (n := 3) (by decide)
  have haxes := Hid.byte_elements (f := axisField) rfl h 1 3
  unfold hidRead
  rw [hidReportMap_fields]
  show some (List.map _ _ ++ ([] ++ (List.map _ _ ++ []))) = _
  rw [List.nil_append, List.append_nil]
  exact congrArg some (congrArg₂ _ hflags haxes)

theorem hidRead_key {m r : Nat} {codes : List Nat} (h : ∀ d ∈ m :: r :: codes, d < 256)
    (hlen : codes.length = 6) :
    hidRead (1 :: m :: r :: codes) = some ((flags 8 m).map some ++ codes.map keyField.element) := by
  match codes, hlen with
  | [c₁, c₂, c₃, c₄, c₅, c₆], _ =>
    have hflags := Hid.flag_elements (f := modifierField) rfl rfl rfl m
      [r, c₁, c₂, c₃, c₄, c₅, c₆] (n := 8) (by decide)
    have hkeys := Hid.byte_elements (f := keyField) rfl h 2 6
    unfold hidRead
    rw [hidReportMap_fields]
    show some (List.map _ _ ++ ([] ++ (List.map _ _ ++ []))) = _
    rw [List.nil_append, List.append_nil]
    exact congrArg some (congrArg₂ _ hflags hkeys)

theorem length_flags (n b : Nat) : (flags n b).length = n := by
  unfold flags
  rw [List.length_map, List.length_range]

theorem ofBits_flags (n b : Nat) : Hid.ofBits (flags n b) = (b % 2 ^ n : Nat) := Hid.ofBits_range n b

/-! ## Bytes -/

theorem toUint8_lt (v : Int) : toUint8 v < 256 := by
  unfold toUint8
  omega

/-- A movement is read back exactly if it is in the logical range. -/
theorem axis_element_iff (v : Int) :
    axisField.element (toUint8 v) = some v ↔ -127 ≤ v ∧ v ≤ 127 := by
  unfold Hid.Field.element axisField toUint8
  simp only
  split
  · split
    · rw [Option.some.injEq]
      omega
    · refine iff_of_false (by simp) ?_
      omega
  · split
    · rw [Option.some.injEq]
      omega
    · refine iff_of_false (by simp) ?_
      omega

theorem key_element_eq_some {raw : Nat} {c : Int} :
    keyField.element raw = some c ↔ (raw : Int) = c ∧ raw ≤ 101 := by
  unfold Hid.Field.element keyField
  simp only [Int.lt_irrefl, false_and, if_false]
  split
  · rw [Option.some.injEq]
    omega
  · refine iff_of_false (by simp) ?_
    omega

theorem toUint8_eq_self_iff (v : Int) : (toUint8 v : Int) = v ↔ 0 ≤ v ∧ v ≤ 255 := by
  unfold toUint8
  omega

theorem toUint8_mod_eight_iff (v : Int) : ((toUint8 v % 2 ^ 3 : Nat) : Int) = v ↔ 0 ≤ v ∧ v ≤ 7 := by
  unfold toUint8
  omega

/-! ## What is asked for -/

/-- The host reads these buttons and movements. -/
def MouseMeans (report : List Nat) (a : MouseArgs) : Prop :=
  ∃ bits, hidRead report = some ((bits ++ [a.x, a.y, a.wheel.getD 0]).map some) ∧
    bits.length = 3 ∧ Hid.ofBits bits = a.buttons

/-- The key that an entry of the table asks for; 0 is none. -/
def keyAsked : Value → Option Int
  | .nil => some 0
  | .integer k => some k
  | _ => none

/-- The host reads these modifiers, and in each place the key that the table has. -/
def KeyMeans (report : List Nat) (modifiers : Int) (keys : Nat → Value) : Prop :=
  ∃ bits codes, hidRead report = some ((bits ++ codes).map some) ∧
    bits.length = 8 ∧ Hid.ofBits bits = modifiers ∧
    ∀ i, keyAsked (keys (i + 1)) = some (codes.getD i 0)

/-- `lua_isinteger` -/
def asInteger : Value → Option Int
  | .integer i => some i
  | _ => none

/-- The arguments of `ble.hid_key`. -/
def hidKeyArgs (modifiers : Value) (table : Option (Nat → Value)) : KeyArgs where
  modifiers := asInteger modifiers
  isTable := table.isSome
  keycodes := fun i => table.bind fun keys => asInteger (keys i)

/-- The last report that was sent. -/
def Ble.lastReport (s : Ble) : Option (List Nat) := s.notifications.getLast?.map Notification.data

structure MouseInMap (a : MouseArgs) : Prop where
  buttons : 0 ≤ a.buttons ∧ a.buttons ≤ 7
  movements : ∀ v ∈ [a.x, a.y, a.wheel.getD 0], -127 ≤ v ∧ v ≤ 127

structure KeysInMap (modifiers : Int) (keys : Nat → Value) : Prop where
  modifiers : 0 ≤ modifiers ∧ modifiers ≤ 255
  codes : ∀ i, i < 6 → ∃ c, keyAsked (keys (i + 1)) = some c ∧ 0 ≤ c ∧ c ≤ 101
  rest : ∀ i, 6 ≤ i → keyAsked (keys (i + 1)) = some 0

theorem mouseMeans_iff (a : MouseArgs) : MouseMeans (Ble.mouseReport a) a ↔ MouseInMap a := by
  have hread := hidRead_mouse (b := toUint8 a.buttons) (x := toUint8 a.x) (y := toUint8 a.y)
    (w := toUint8 (a.wheel.getD 0)) (by simp [toUint8_lt])
  have hbits := ofBits_flags 3 (toUint8 a.buttons)
  constructor
  · rintro ⟨bits, hmeans, hlen, hbuttons⟩
    have heq := Option.some.inj (hread.symm.trans hmeans)
    rw [List.map_append] at heq
    obtain ⟨hflags, haxes⟩ := List.append_inj heq (by simp [length_flags, hlen])
    have hflags := (List.map_inj_right fun _ _ => Option.some.inj).mp hflags
    simp only [List.map_cons, List.map_nil, List.cons.injEq, axis_element_iff, and_true] at haxes
    refine ⟨?_, by simpa using haxes⟩
    rw [← toUint8_mod_eight_iff, ← hbits, hflags]
    exact hbuttons
  · rintro ⟨hbuttons, hmovements⟩
    refine ⟨flags 3 (toUint8 a.buttons), ?_, length_flags 3 _, ?_⟩
    · have haxes : [toUint8 a.x, toUint8 a.y, toUint8 (a.wheel.getD 0)].map axisField.element =
          [a.x, a.y, a.wheel.getD 0].map some := by
        simp only [List.map_cons, List.map_nil, List.cons.injEq, axis_element_iff, and_true]
        simpa using hmovements
      rw [List.map_append, ← haxes]
      exact hread
    · rw [hbits]
      exact (toUint8_mod_eight_iff a.buttons).mpr hbuttons

/-- The codes that are sent for the table. -/
def sentCodes (keys : Nat → Value) : List Nat :=
  (List.range 6).map fun i => toUint8 ((asInteger (keys (i + 1))).getD 0)

theorem length_sentCodes (keys : Nat → Value) : (sentCodes keys).length = 6 := by
  unfold sentCodes
  rw [List.length_map, List.length_range]

theorem getElem?_sentCodes (keys : Nat → Value) {i : Nat} (hi : i < 6) :
    (sentCodes keys)[i]? = some (toUint8 ((asInteger (keys (i + 1))).getD 0)) := by
  unfold sentCodes
  rw [List.getElem?_map, List.getElem?_range hi, Option.map_some]

theorem asInteger_of_keyAsked {v : Value} {c : Int} (h : keyAsked v = some c) :
    (asInteger v).getD 0 = c := by
  cases v with
  | nil => exact Option.some.inj h
  | integer k => exact Option.some.inj h
  | _ => cases h

theorem hidRead_sentCodes (m : Int) (keys : Nat → Value) :
    hidRead ([1, toUint8 m, 0] ++ sentCodes keys) =
      some ((flags 8 (toUint8 m)).map some ++ (sentCodes keys).map keyField.element) := by
  refine hidRead_key (fun d hd => ?_) (length_sentCodes keys)
  rcases List.mem_cons.mp hd with rfl | hd
  · exact toUint8_lt m
  · rcases List.mem_cons.mp hd with rfl | hd
    · decide
    · obtain ⟨i, -, rfl⟩ := List.mem_map.mp hd
      exact toUint8_lt _

theorem keyMeans_iff (m : Int) (keys : Nat → Value) :
    KeyMeans ([1, toUint8 m, 0] ++ sentCodes keys) m keys ↔ KeysInMap m keys := by
  have hread := hidRead_sentCodes m keys
  have hbits := ofBits_flags 8 (toUint8 m)
  rw [show toUint8 m % 2 ^ 8 = toUint8 m from Nat.mod_eq_of_lt (toUint8_lt m)] at hbits
  constructor
  · rintro ⟨bits, codes, hmeans, hlen, hmodifiers, hasked⟩
    have heq := Option.some.inj (hread.symm.trans hmeans)
    rw [List.map_append] at heq
    obtain ⟨hflags, hcodes⟩ := List.append_inj heq (by simp [length_flags, hlen])
    have hflags := (List.map_inj_right fun _ _ => Option.some.inj).mp hflags
    refine ⟨?_, fun i hi => ?_, fun i hi => ?_⟩
    · rw [← toUint8_eq_self_iff, ← hbits, hflags]
      exact hmodifiers
    · have hplace := congrArg (fun l => l[i]?) hcodes
      simp only [List.getElem?_map, getElem?_sentCodes keys hi, Option.map_some] at hplace
      obtain ⟨c, hc, helement⟩ := Option.map_eq_some_iff.mp hplace.symm
      obtain ⟨hraw, hle⟩ := key_element_eq_some.mp helement.symm
      have hasked := hasked i
      rw [List.getD_eq_getElem?_getD, hc, Option.getD_some] at hasked
      exact ⟨c, hasked, by omega⟩
    · have hcount := congrArg List.length hcodes
      rw [List.length_map, List.length_map, length_sentCodes] at hcount
      rw [hasked i, List.getD_eq_getElem?_getD, List.getElem?_eq_none (by omega)]
      rfl
  · rintro ⟨hmodifiers, hcodes, hrest⟩
    -- a code that was asked for is sent as it is
    have hsent : ∀ i, i < 6 → ∃ c : Nat, keyAsked (keys (i + 1)) = some (c : Int) ∧ c ≤ 101 ∧
        (sentCodes keys)[i]? = some c := by
      intro i hi
      obtain ⟨c, hasked, hc⟩ := hcodes i hi
      refine ⟨toUint8 c, ?_, ?_, ?_⟩
      · rw [(toUint8_eq_self_iff c).mpr (by omega)]
        exact hasked
      · have := (toUint8_eq_self_iff c).mpr (by omega)
        omega
      · rw [getElem?_sentCodes keys hi, asInteger_of_keyAsked hasked]
    refine ⟨flags 8 (toUint8 m), (sentCodes keys).map fun c : Nat => (c : Int), ?_,
      length_flags 8 _, ?_, fun i => ?_⟩
    · rw [hread, List.map_append, List.map_map]
      congr 2
      rw [List.map_inj_left]
      intro c hc
      obtain ⟨i, hi⟩ := List.mem_iff_getElem?.mp hc
      have hlt := (List.getElem?_eq_some_iff.mp hi).1
      rw [length_sentCodes] at hlt
      obtain ⟨c', -, hle, hc'⟩ := hsent i hlt
      obtain rfl := Option.some.inj (hi.symm.trans hc')
      exact key_element_eq_some.mpr ⟨rfl, hle⟩
    · rw [hbits]
      exact (toUint8_eq_self_iff m).mpr hmodifiers
    · rcases Nat.lt_or_ge i 6 with hi | hi
      · obtain ⟨c, hasked, -, hc⟩ := hsent i hi
        rw [hasked, List.getD_eq_getElem?_getD, List.getElem?_map, hc]
        rfl
      · rw [hrest i hi, List.getD_eq_getElem?_getD, List.getElem?_eq_none]
        · rfl
        · rw [List.length_map, length_sentCodes]
          exact hi

/-! ## What is sent -/

/-- A report that is sent is the last one. -/
theorem lastReport_of_ok {s : Ble} {chr : Characteristic} {handle : Nat} {buf : List Nat}
    {t : SendTurn} (h : (Ble.hidAnswer (s.hidSendReport chr handle buf t)).2 = .ok) :
    (Ble.hidAnswer (s.hidSendReport chr handle buf t)).1.lastReport = some buf := by
  unfold Ble.hidAnswer Ble.hidSendReport at h ⊢
  split at h
  · cases h
  · next hconn =>
    split at h
    · cases h
    · next halloc =>
      rw [if_neg hconn, if_neg halloc]
      show ((s.notifications ++ [_]).getLast?).map _ = _
      rw [List.getLast?_concat]
      rfl

/-- A connection over which reports go. -/
def bleConnected : Ble := { ble.init with connHandle := 1 }

theorem hidSendReport_connected (chr : Characteristic) (handle : Nat) (buf : List Nat) :
    (Ble.hidAnswer (bleConnected.hidSendReport chr handle buf ⟨true, true⟩)).2 = .ok := rfl

/-- What a mouse call sends reads as it was asked for, in every state and however
the calls into NimBLE end. -/
def MouseFaithful (a : MouseArgs) : Prop :=
  ∀ (s : Ble) (t : SendTurn), (s.luaBleHidSendMouse a t).2 = .ok →
    ∃ report, (s.luaBleHidSendMouse a t).1.lastReport = some report ∧ MouseMeans report a

theorem mouseFaithful_iff (a : MouseArgs) :
    MouseFaithful a ↔ (a.badArgument = none → MouseInMap a) := by
  unfold MouseFaithful Ble.luaBleHidSendMouse
  cases hbad : a.badArgument with
  | some msg => exact iff_of_true (fun s t h => by cases h) fun h => by cases h
  | none =>
    simp only [true_implies, ← mouseMeans_iff]
    constructor
    · intro h
      have hok := hidSendReport_connected .reportMouse
        (bleConnected.handles .hidReportCharHandleMouse) (Ble.mouseReport a)
      obtain ⟨report, hlast, hmeans⟩ := h bleConnected ⟨true, true⟩ hok
      rw [lastReport_of_ok hok] at hlast
      exact Option.some.inj hlast ▸ hmeans
    · intro h s t hok
      exact ⟨_, lastReport_of_ok hok, h⟩

/-- The same of a key call. -/
def KeyFaithful (modifiers : Value) (table : Option (Nat → Value)) : Prop :=
  ∀ (s : Ble) (t : SendTurn), (s.luaBleHidSendKey (hidKeyArgs modifiers table) t).2 = .ok →
    ∃ m keys report, modifiers = .integer m ∧ table = some keys ∧
      (s.luaBleHidSendKey (hidKeyArgs modifiers table) t).1.lastReport = some report ∧
      KeyMeans report m keys

theorem keyFaithful_iff (modifiers : Value) (table : Option (Nat → Value)) :
    KeyFaithful modifiers table ↔
      ∀ m keys, modifiers = .integer m → table = some keys → KeysInMap m keys := by
  cases hm : asInteger modifiers with
  | none =>
    have hno : ∀ m, modifiers ≠ .integer m := by
      rintro m rfl
      cases hm
    refine iff_of_true (fun s t hok => ?_) fun m keys h => absurd h (hno m)
    unfold Ble.luaBleHidSendKey hidKeyArgs at hok
    simp only [hm] at hok
    cases hok
  | some m =>
    obtain rfl : modifiers = .integer m := by
      cases modifiers <;> cases hm
      rfl
    cases table with
    | none => exact iff_of_true (fun s t hok => by cases hok) fun m keys _ h => by cases h
    | some keys =>
      have hfits : (∀ m' keys', Value.integer m = .integer m' → some keys = some keys' →
          KeysInMap m' keys') ↔ KeyMeans ([1, toUint8 m, 0] ++ sentCodes keys) m keys := by
        rw [keyMeans_iff]
        constructor
        · exact fun h => h m keys rfl rfl
        · intro h m' keys' heq heq'
          cases heq
          cases heq'
          exact h
      rw [hfits]
      constructor
      · intro h
        have hok := hidSendReport_connected .reportKeyboard
          (bleConnected.handles .hidReportCharHandleKb) ([1, toUint8 m, 0] ++ sentCodes keys)
        obtain ⟨m', keys', report, heq, heq', hlast, hmeans⟩ := h bleConnected ⟨true, true⟩ hok
        cases heq
        cases heq'
        have hlast := (lastReport_of_ok hok).symm.trans hlast
        exact Option.some.inj hlast ▸ hmeans
      · intro h s t hok
        exact ⟨m, keys, _, rfl, rfl, lastReport_of_ok hok, h⟩

/-- **HID reports.**  A mouse call means what it was asked exactly if the buttons
are the three of the map and the movements are in its range, or an argument is
refused; a key call exactly if the modifiers are a byte and the table asks for
six keys of the map at most, or an argument is refused. -/
theorem hid_reports_iff (a : MouseArgs) (modifiers : Value) (table : Option (Nat → Value)) :
    (MouseFaithful a ↔ (a.badArgument = none → MouseInMap a)) ∧
      (KeyFaithful modifiers table ↔
        ∀ m keys, modifiers = .integer m → table = some keys → KeysInMap m keys) :=
  ⟨mouseFaithful_iff a, keyFaithful_iff modifiers table⟩

/-- `ble.hid_mouse(0, 200, 0)`: the movement is read as -56. -/
theorem hid_mouse_reversed :
    ¬ ((∀ a, MouseFaithful a) ∧ ∀ modifiers table, KeyFaithful modifiers table) := by
  intro h
  have hfits := (mouseFaithful_iff ⟨none, 0, 200, 0, none⟩).mp (h.1 _) rfl
  exact absurd (hfits.movements 200 List.mem_cons_self).2 (by decide)

end CLIos
