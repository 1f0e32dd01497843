import CLIos.Lib.CString
import CLIos.Net.Wifi

/-!
# Wi-Fi credentials

What `wifi.sta.start` and `wifi.ap.start` put into a `wifi_config_t`
(components/NET/net_wifi.c): an SSID field of 32 bytes, a password field of 64,
both zeros before, and for an access point an 8-bit `ssid_len`.

Neither field needs a NUL at its end, but `strncpy` is given one byte less than
there is.  `ssid_len` is the length of the argument, not of what was copied.
-/

namespace CLIos

open CMem LuaApi TextFile

/-- The configuration holds this SSID, and this password if it holds one. -/
def WifiConfig.Holds (ssid pass : Bytes) : WifiConfig → Prop
  | .sta stored password => cstr stored = ssid ∧ cstr password = pass
  | .ap stored ssidLen _ _ password =>
    stored.take ssidLen = ssid ∧ (cstr password ≠ [] → cstr password = pass)

/-- `ssid_len` fits the field and is the number of bytes that were stored. -/
def WifiConfig.LengthFits : WifiConfig → Prop
  | .sta _ _ => True
  | .ap stored ssidLen _ _ _ => ssidLen ≤ 32 ∧ ssidLen = (cstr stored).length

/-- An SSID of 1 to 32 bytes and a password of at most 64, without NUL. -/
structure Admissible (ssid pass : Bytes) : Prop where
  ssid_pos : 0 < ssid.length
  ssid_le : ssid.length ≤ 32
  ssid_noNul : 0 ∉ ssid
  pass_le : pass.length ≤ 64
  pass_noNul : 0 ∉ pass

structure CredentialsKept (ssid : Bytes) (pass : Option Bytes) (channel : Option Int) : Prop where
  held : Admissible ssid (pass.getD []) →
    (Wifi.staConfig ssid pass).Holds ssid (pass.getD []) ∧
      (Wifi.apConfig ssid pass channel).Holds ssid (pass.getD [])
  long : 32 < ssid.length → (Wifi.apConfig ssid pass channel).LengthFits

namespace Wifi

/-! ## What the calls hand to the driver -/

variable {δ ε : Type} {D : WifiDriver δ ε}

theorem check_calls {s s' : Wifi δ} {c : DriverCall} (h : s.check D c = some s') :
    s'.calls = s.calls ++ [.driver c] := by
  obtain ⟨-, rfl⟩ := check_eq_some h
  rfl

theorem lWifiStaStart_calls {s s' : Wifi δ} {ssid : Bytes} {pass : Option Bytes} {r : WifiAnswer}
    (h : s.lWifiStaStart D ssid pass = some (s', r)) :
    s'.calls = s.calls ++ [.driver (.setConfig (staConfig ssid pass)), .driver .connect] := by
  obtain ⟨s₁, h₁, h⟩ := Option.bind_eq_some_iff.mp h
  obtain ⟨s₂, h₂, heq⟩ := Option.map_eq_some_iff.mp h
  cases heq
  rw [check_calls h₂, check_calls h₁, List.append_assoc]
  rfl

theorem lWifiApStart_calls {s s' : Wifi δ} {ssid : Bytes} {pass : Option Bytes}
    {channel : Option Int} {r : WifiAnswer}
    (h : s.lWifiApStart D ssid pass channel = some (s', r)) :
    s'.calls = s.calls ++ [.driver (.setConfig (apConfig ssid pass channel))] := by
  obtain ⟨s₁, h₁, heq⟩ := Option.map_eq_some_iff.mp h
  cases heq
  exact check_calls h₁

/-! ## One field -/

theorem field_eq (size : Nat) (src : Bytes) : field size src =
    (cstr src).take (size - 1) ++ List.replicate (size - min (size - 1) (cstr src).length) 0 := by
  rw [← List.length_take]
  rfl

/-- A field is what `strncpy` leaves in a block of zeros. -/
theorem field_strncpy (size : Nat) (src : Bytes) :
    ((CArray.fill size (0 : UInt8)).strncpy src (size - 1)).map CArray.cells =
      some (field size src) := by
  let copied := (cstr src).take (size - 1)
  let zeros := List.replicate (size - 1 - (cstr src).length) (0 : UInt8)
  have hlen : (copied ++ zeros).length = size - 1 := by
    rw [List.length_append, List.length_take, List.length_replicate]
    omega
  obtain ⟨a, ha⟩ := (CArray.memcpy_eq_some_iff (CArray.fill size 0) 0 (copied ++ zeros)).mpr
    (by omega)
  have hcells := CArray.cells_of_memcpy ha
  rw [List.take_zero, List.nil_append, hlen, Nat.zero_add] at hcells
  show (Option.map _ ((CArray.fill size 0).memcpy 0 (copied ++ zeros))) = _
  rw [ha, Option.map_some, hcells, field_eq]
  -- the padding and the byte that was left are one run of zeros
  show some (copied ++ zeros ++ (List.replicate size 0).drop (size - 1)) = _
  rw [List.drop_replicate, List.append_assoc, List.replicate_append_replicate]
  congr 4
  omega

theorem length_field (size : Nat) (src : Bytes) (h : 0 < size) : (field size src).length = size := by
  rw [field_eq, List.length_append, List.length_take, List.length_replicate]
  omega

/-- A field is read as the bytes that were copied. -/
theorem cstr_field (size : Nat) (src : Bytes) :
    cstr (field size src) = (cstr src).take (size - 1) := by
  have hzero : (0 : UInt8) ∉ (cstr src).take (size - 1) :=
    fun h => zero_not_mem_cstr src (List.mem_of_mem_take h)
  rw [field_eq, cstr_append_zeros hzero]

/-- A string without NUL is kept in a field exactly if it leaves one byte. -/
theorem cstr_field_eq_iff {size : Nat} {src : Bytes} (h : 0 ∉ src) :
    cstr (field size src) = src ↔ src.length ≤ size - 1 := by
  rw [cstr_field, cstr_of_not_mem h, List.take_eq_self_iff]

/-- The bytes of a field up to the length of the argument. -/
theorem take_field_eq_iff {size : Nat} {src : Bytes} (h : 0 ∉ src) (hle : src.length ≤ size) :
    (field size src).take src.length = src ↔ src.length ≤ size - 1 := by
  constructor
  · intro htake
    apply (cstr_field_eq_iff h).mp
    rw [cstr_field, cstr_of_not_mem h, List.take_eq_self_iff]
    by_contra hlong
    -- the last byte of the field is a zero, and the argument has none
    have hsize : src.length = size := by omega
    have hall : (field size src).take src.length = field size src := by
      rw [hsize]
      exact List.take_of_length_le (Nat.le_of_eq (length_field size src (by omega)))
    have hlast : (0 : UInt8) ∈ field size src := by
      rw [field_eq, cstr_of_not_mem h]
      exact List.mem_append.mpr (Or.inr (List.mem_replicate.mpr ⟨by omega, rfl⟩))
    rw [← hall, htake] at hlast
    exact h hlast
  · intro hshort
    rw [field_eq, cstr_of_not_mem h, List.take_of_length_le hshort, List.take_left]

end Wifi

/-! ## The two configurations -/

variable {ssid : Bytes} {pass : Option Bytes} {channel : Option Int}

theorem staConfig_holds_iff (h : Admissible ssid (pass.getD [])) :
    (Wifi.staConfig ssid pass).Holds ssid (pass.getD []) ↔
      ssid.length ≤ 31 ∧ (pass.getD []).length ≤ 63 := by
  show cstr (Wifi.field 32 ssid) = ssid ∧ cstr (Wifi.field 64 (pass.getD [])) = pass.getD [] ↔ _
  rw [Wifi.cstr_field_eq_iff h.ssid_noNul, Wifi.cstr_field_eq_iff h.pass_noNul]

theorem apConfig_holds_iff (h : Admissible ssid (pass.getD [])) :
    (Wifi.apConfig ssid pass channel).Holds ssid (pass.getD []) ↔
      ssid.length ≤ 31 ∧ (pass.getD []).length ≤ 63 := by
  have hlen : toUint8 (cstr ssid).length = ssid.length := by
    rw [cstr_of_not_mem h.ssid_noNul]
    have := h.ssid_le
    unfold toUint8
    omega
  show (Wifi.field 32 ssid).take (toUint8 (cstr ssid).length) = ssid ∧ _ ↔ _
  rw [hlen, Wifi.take_field_eq_iff h.ssid_noNul h.ssid_le, cstr_of_not_mem h.pass_noNul]
  refine and_congr_right fun _ => ?_
  split
  · next hpass =>
    constructor
    · intro hstored
      by_contra hlong
      have hne : cstr (Wifi.field 64 (pass.getD [])) ≠ [] := by
        rw [Wifi.cstr_field, cstr_of_not_mem h.pass_noNul]
        intro hnil
        have := congrArg List.length hnil
        rw [List.length_take, List.length_nil] at this
        omega
      exact hlong ((Wifi.cstr_field_eq_iff h.pass_noNul).mp (hstored hne))
    · exact fun hle _ => (Wifi.cstr_field_eq_iff h.pass_noNul).mpr hle
  · next hpass =>
    refine iff_of_true (fun hne => absurd ?_ hne) (by omega)
    exact cstr_append_zeros (s := []) List.not_mem_nil 64

theorem apConfig_lengthFits_iff :
    (Wifi.apConfig ssid pass channel).LengthFits ↔
      (cstr ssid).length ≤ 31 ∨ (cstr ssid).length % 256 = 31 := by
  show toUint8 (cstr ssid).length ≤ 32 ∧ _ = (cstr (Wifi.field 32 ssid)).length ↔ _
  rw [Wifi.cstr_field, List.length_take]
  unfold toUint8
  omega

/-- **Credentials.**  They are stored as given exactly where each leaves a byte of
its field, and the length of a longer SSID is right exactly where 31 is what 8 bits
keep of it. -/
theorem wifi_credentials_iff (ssid : Bytes) (pass : Option Bytes) (channel : Option Int) :
    CredentialsKept ssid pass channel ↔
      (Admissible ssid (pass.getD []) → ssid.length ≤ 31 ∧ (pass.getD []).length ≤ 63) ∧
        (32 < ssid.length → (cstr ssid).length ≤ 31 ∨ (cstr ssid).length % 256 = 31) := by
  constructor
  · intro h
    exact ⟨fun ha => (staConfig_holds_iff ha).mp (h.held ha).1,
      fun hlong => apConfig_lengthFits_iff.mp (h.long hlong)⟩
  · rintro ⟨hheld, hlong⟩
    exact ⟨fun ha => ⟨(staConfig_holds_iff ha).mpr (hheld ha), (apConfig_holds_iff ha).mpr (hheld ha)⟩,
      fun h => apConfig_lengthFits_iff.mpr (hlong h)⟩

/-- An SSID of 32 bytes: the last is not copied. -/
theorem ssid_32_cut : ¬ ∀ ssid pass channel, CredentialsKept ssid pass channel := by
  intro h
  have hheld := (h (List.replicate 32 97) none none).held
  have ha : Admissible (List.replicate 32 97) ((none : Option Bytes).getD []) :=
    ⟨by decide, by decide, by decide, by decide, by decide⟩
  exact absurd (hheld ha).1.1 (by decide)

end CLIos
