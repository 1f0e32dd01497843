import CLIos.Com.Handles
import CLIos.Lib.CArray
import CLIos.Lib.LuaApi

/-!
# RMT: the symbols of a transfer

`F_SEND_RAW` of components/COM/com_rmt.c with what it sends, for the drivers of
ESP-IDF 5.  A duration is narrowed to `uint32_t` and then to the 15 bits of its
field; an entry that is no integer leaves the function by an error while the
buffer of symbols is allocated.

`Handles` has the same method without the data; `fSendRaw_answer` compares them.
-/

namespace CLIos

namespace Rmt

open CMem LuaApi

/-- `rmt_symbol_word_t` -/
structure Symbol where
  level0 : Bool
  duration0 : Nat
  level1 : Bool
  duration1 : Nat
deriving DecidableEq

/-- The second argument of `send_raw`. -/
inductive Arg where
  | string (s : List Char)
  | table (entries : List Value)
  | other

inductive Call where
  | calloc (pairs : Nat)
  | transmitBytes (s : List Char)
  | transmit (syms : List Symbol)
  | wait
  | free
deriving DecidableEq

/-- What Lua, malloc and the driver answer. -/
structure Turn where
  integers : Integers
  /-- the error of `luaL_checkinteger` -/
  badInteger : Value → String
  allocated : Bool
  /-- `rmt_transmit` and `rmt_tx_wait_all_done` return `ESP_OK` -/
  transmitted : Bool
  waited : Bool

structure Run where
  calls : List Call
  /-- `none` if a check ends the firmware -/
  answer : Option (Except String Bool)

/-- The four assignments to a symbol; a duration has 15 bits. -/
def symbol (hi lo : Int) : Symbol where
  level0 := true
  duration0 := toUint32 hi % 32768
  level1 := false
  duration1 := toUint32 lo % 32768

/-- `lua_rawgeti(L, 2, i)` -/
def rawgeti (entries : List Value) (i : Nat) : Value := entries[i - 1]?.getD .nil

/-- The loop over `i` and `si`, for at most `fuel` rounds; it may leave with the
value of an entry that is no integer. -/
def fillSyms (N : Integers) (entries : List Value) (n : Int) {pairs : Nat} :
    Nat → Nat → Nat → CArray Symbol pairs → Option (Except Value (CArray Symbol pairs))
  | 0, _, _, _ => none
  | fuel + 1, i, si, syms =>
    if (i : Int) ≤ n then
      match N.checkInteger (rawgeti entries i) with
      | none => some (.error (rawgeti entries i))
      | some hi =>
        match N.checkInteger (rawgeti entries (i + 1)) with
        | none => some (.error (rawgeti entries (i + 1)))
        | some lo =>
          (syms.store si (symbol hi lo)).bind fun syms =>
          fillSyms N entries n fuel (i + 2) (si + 1) syms
    else some (.ok syms)

/-- The calls of the driver, and what comes after them. -/
def send (t : Turn) (cs : List Call) (c : Call) (after : List Call) : Run :=
  if t.transmitted = false then ⟨cs ++ [c], none⟩
  else if t.waited = false then ⟨cs ++ [c, .wait], none⟩
  else ⟨cs ++ [c, .wait] ++ after, some (.ok true)⟩

def fSendRaw (t : Turn) : Arg → Option Run
  | .string s => some (send t [] (.transmitBytes s) [])
  | .table entries =>
    let n := toInt entries.length
    if n ≤ 0 ∨ n % 2 = 1 then
      some ⟨[], some (.error "table must contain even count: \x7bhi,lo,...\x7d")⟩
    else
      let pairs := (n / 2).toNat
      if t.allocated = false then some ⟨[], some (.error "oom")⟩
      else
        (fillSyms t.integers entries n (pairs + 1) 1 0
          (CArray.fill pairs ⟨false, 0, false, 0⟩)).map fun
        | .error v => ⟨[.calloc pairs], some (.error (t.badInteger v))⟩
        | .ok syms => send t [.calloc pairs] (.transmit syms.cells) [.free]
  | .other => some ⟨[], some (.error "arg 2 must be string or table")⟩

/-! ## What the peripheral makes of symbols -/

def Symbol.pulses (s : Symbol) : List (Bool × Nat) :=
  [(s.level0, s.duration0), (s.level1, s.duration1)]

/-- The levels and their ticks, up to a duration of zero. -/
def train (syms : List Symbol) : List (Bool × Int) :=
  ((syms.flatMap Symbol.pulses).takeWhile fun p => p.2 ≠ 0).map fun p => (p.1, p.2)

/-- The train that is listed: high, low, and so on. -/
def wave : List Int → List (Bool × Int)
  | hi :: lo :: ds => (true, hi) :: (false, lo) :: wave ds
  | _ => []

/-- What is sent for these durations. -/
def symbols : List Int → List Symbol
  | hi :: lo :: ds => symbol hi lo :: symbols ds
  | _ => []

/-- Induction over lists of even length, two entries a step. -/
theorem even_induction {P : (ds : List Int) → ds.length % 2 = 0 → Prop} (nil : P [] rfl)
    (pair : ∀ hi lo ds h h', P ds h → P (hi :: lo :: ds) h') :
    ∀ (ds : List Int) (h : ds.length % 2 = 0), P ds h
  | [], _ => nil
  | [_], h => by cases h
  | hi :: lo :: ds, h => by
    have h' : ds.length % 2 = 0 := by
      simp only [List.length_cons] at h
      omega
    exact pair hi lo ds h' h (even_induction nil pair ds h')

/-- A duration that a symbol can hold. -/
def FitsSymbol (d : Int) : Prop := 1 ≤ d ∧ d ≤ 32767

theorem toUint32_field (d : Int) : ((toUint32 d % 32768 : Nat) : Int) = d % 32768 := by
  unfold toUint32
  omega

theorem fitsSymbol_iff (d : Int) : FitsSymbol d ↔ toUint32 d % 32768 ≠ 0 ∧
    ((toUint32 d % 32768 : Nat) : Int) = d := by
  have hfield := toUint32_field d
  unfold FitsSymbol
  omega

theorem train_cons (hi lo : Int) (syms : List Symbol) :
    train (symbol hi lo :: syms) =
      if toUint32 hi % 32768 = 0 then []
      else (true, ((toUint32 hi % 32768 : Nat) : Int)) ::
        if toUint32 lo % 32768 = 0 then []
        else (false, ((toUint32 lo % 32768 : Nat) : Int)) :: train syms := by
  unfold train
  rw [List.flatMap_cons]
  show ((List.takeWhile _ ((true, toUint32 hi % 32768) :: (false, toUint32 lo % 32768) ::
    syms.flatMap Symbol.pulses)).map _) = _
  by_cases hhi : toUint32 hi % 32768 = 0
  · simp [hhi]
  · by_cases hlo : toUint32 lo % 32768 = 0
    · simp [hhi, hlo]
    · simp [hhi, hlo]

/-- The symbols decode to what is listed exactly if every duration fits. -/
theorem train_symbols_iff (ds : List Int) (heven : ds.length % 2 = 0) :
    train (symbols ds) = wave ds ↔ ∀ d ∈ ds, FitsSymbol d := by
  induction ds, heven using even_induction with
  | nil => simp [symbols, wave, train]
  | pair hi lo ds _ _ ih =>
    simp only [symbols, wave, train_cons, List.forall_mem_cons, fitsSymbol_iff hi,
      fitsSymbol_iff lo, ← ih]
    by_cases hhi : toUint32 hi % 32768 = 0
    · simp [hhi]
    · by_cases hlo : toUint32 lo % 32768 = 0
      · simp [hhi, hlo]
      · simp [hhi, hlo]

theorem length_train (syms : List Symbol) : (train syms).length ≤ 2 * syms.length := by
  have hpulses : (syms.flatMap Symbol.pulses).length = 2 * syms.length := by
    induction syms with
    | nil => rfl
    | cons s syms ih =>
      rw [List.flatMap_cons, List.length_append, ih, List.length_cons]
      show 2 + _ = _
      omega
  unfold train
  rw [List.length_map, ← hpulses]
  exact (List.takeWhile_sublist _).length_le

theorem length_wave (ds : List Int) (heven : ds.length % 2 = 0) : (wave ds).length = ds.length := by
  induction ds, heven using even_induction with
  | nil => rfl
  | pair hi lo ds _ _ ih => simp only [wave, List.length_cons, ih]

theorem length_symbols (ds : List Int) (heven : ds.length % 2 = 0) :
    2 * (symbols ds).length = ds.length := by
  induction ds, heven using even_induction with
  | nil => rfl
  | pair hi lo ds _ _ ih =>
    simp only [symbols, List.length_cons]
    omega

theorem symbols_append (ds : List Int) (hi lo : Int) (heven : ds.length % 2 = 0) :
    symbols (ds ++ [hi, lo]) = symbols ds ++ [symbol hi lo] := by
  induction ds, heven using even_induction with
  | nil => rfl
  | pair hi' lo' ds _ _ ih => simp only [List.cons_append, symbols, ih]

/-! ## The loop -/

/-- Entries and durations go together. -/
theorem mem_of_converted {N : Integers} {entries : List Value} {ds : List Int}
    (h : entries.map N.checkInteger = ds.map some) :
    (∀ v ∈ entries, ∃ d ∈ ds, N.checkInteger v = some d) ∧
      ∀ d ∈ ds, ∃ v ∈ entries, N.checkInteger v = some d := by
  constructor
  · intro v hv
    have hv := List.mem_map_of_mem (f := N.checkInteger) hv
    rw [h] at hv
    obtain ⟨d, hd, heq⟩ := List.mem_map.mp hv
    exact ⟨d, hd, heq.symm⟩
  · intro d hd
    have hd := List.mem_map_of_mem (f := some) hd
    rw [← h] at hd
    obtain ⟨v, hv, heq⟩ := List.mem_map.mp hd
    exact ⟨v, hv, heq⟩

/-- The entries before round `si` are integers, and their symbols are stored. -/
structure Filled (N : Integers) (entries : List Value) {pairs : Nat} (si : Nat)
    (syms : CArray Symbol pairs) (ds : List Int) : Prop where
  converted : (entries.take (2 * si)).map N.checkInteger = ds.map some
  length : ds.length = 2 * si
  stored : syms.first si = symbols ds

variable {N : Integers} {entries : List Value} {pairs si : Nat} {syms : CArray Symbol pairs}
  {ds : List Int}

theorem rawgeti_mem {i : Nat} (h : i < entries.length) :
    entries[i]? = some (rawgeti entries (i + 1)) := by
  unfold rawgeti
  rw [Nat.add_sub_cancel, List.getElem?_eq_getElem h, Option.getD_some]

theorem Filled.step (h : Filled N entries si syms ds) (hlen : 2 * si + 1 < entries.length)
    (hsi : si < pairs) {hi lo : Int} (hhi : N.checkInteger (rawgeti entries (2 * si + 1)) = some hi)
    (hlo : N.checkInteger (rawgeti entries (2 * si + 2)) = some lo) :
    ∃ syms', syms.store si (symbol hi lo) = some syms' ∧
      Filled N entries (si + 1) syms' (ds ++ [hi, lo]) := by
  obtain ⟨syms', hstore⟩ := CArray.store_eq_some syms si (symbol hi lo) hsi
  refine ⟨syms', hstore, ?_, ?_, ?_⟩
  · rw [show 2 * (si + 1) = 2 * si + 1 + 1 by omega, List.take_add_one, List.take_add_one,
      rawgeti_mem (show 2 * si < entries.length by omega), rawgeti_mem hlen]
    simp [h.converted, hhi, hlo]
  · rw [List.length_append, h.length]
    simp
    omega
  · rw [CArray.first_store_succ hstore, h.stored, symbols_append ds hi lo (by rw [h.length]; omega)]

/-- The loop stores all symbols, or leaves at an entry that is no integer. -/
theorem fillSyms_cases (hlen : 2 * pairs ≤ entries.length) (fuel : Nat) (hle : si ≤ pairs)
    (h : Filled N entries si syms ds) (hfuel : pairs - si < fuel) :
    (∃ syms' ds', fillSyms N entries (2 * pairs : Nat) fuel (2 * si + 1) si syms = some (.ok syms') ∧
      Filled N entries pairs syms' ds') ∨
    ∃ v ∈ entries.take (2 * pairs), N.checkInteger v = none ∧
      fillSyms N entries (2 * pairs : Nat) fuel (2 * si + 1) si syms = some (.error v) := by
  induction fuel generalizing si syms ds with
  | zero => omega
  | succ fuel ih =>
    unfold fillSyms
    by_cases hsi : si < pairs
    · rw [if_pos (by omega)]
      have hmem : ∀ i, i < 2 * pairs → rawgeti entries (i + 1) ∈ entries.take (2 * pairs) := by
        intro i hi
        apply List.mem_of_getElem? (i := i)
        rw [List.getElem?_take_of_lt hi, rawgeti_mem (by omega)]
      cases hhi : N.checkInteger (rawgeti entries (2 * si + 1)) with
      | none => exact Or.inr ⟨_, hmem (2 * si) (by omega), hhi, rfl⟩
      | some hi =>
        cases hlo : N.checkInteger (rawgeti entries (2 * si + 1 + 1)) with
        | none => exact Or.inr ⟨_, hmem (2 * si + 1) (by omega), hlo, rfl⟩
        | some lo =>
          obtain ⟨syms₁, hstore, hfilled⟩ := h.step (by omega) hsi hhi hlo
          simp only [hstore, Option.bind_some]
          exact ih (show si + 1 ≤ pairs by omega) hfilled (by omega)
    · rw [if_neg (by omega)]
      obtain rfl : si = pairs := by omega
      exact Or.inl ⟨syms, ds, rfl, h⟩

/-! ## What is sent -/

/-- How a call with a table goes. -/
inductive TableRun (t : Turn) (entries : List Value) : Option Run → Prop
  | count : toInt entries.length ≤ 0 ∨ toInt entries.length % 2 = 1 →
      TableRun t entries
        (some ⟨[], some (.error "table must contain even count: \x7bhi,lo,...\x7d")⟩)
  | oom (pairs : Nat) : 0 < pairs → (2 * pairs : Nat) = toInt entries.length →
      t.allocated = false → TableRun t entries (some ⟨[], some (.error "oom")⟩)
  | bad (pairs : Nat) (v : Value) : 0 < pairs → (2 * pairs : Nat) = toInt entries.length →
      t.allocated = true → v ∈ entries.take (2 * pairs) → t.integers.checkInteger v = none →
      TableRun t entries (some ⟨[.calloc pairs], some (.error (t.badInteger v))⟩)
  | sent (pairs : Nat) (syms : CArray Symbol pairs) (ds : List Int) : 0 < pairs →
      (2 * pairs : Nat) = toInt entries.length → t.allocated = true →
      Filled t.integers entries pairs syms ds →
      TableRun t entries (some (send t [.calloc pairs] (.transmit (symbols ds)) [.free]))

theorem fSendRaw_table (t : Turn) (entries : List Value) :
    TableRun t entries (fSendRaw t (.table entries)) := by
  have hle : toInt entries.length ≤ entries.length := by
    rw [toInt_eq]
    omega
  unfold fSendRaw
  simp only
  split
  · next hcount => exact .count hcount
  · next hcount =>
    obtain ⟨pairs, hpairs⟩ : ∃ pairs : Nat, (toInt entries.length / 2).toNat = pairs := ⟨_, rfl⟩
    have hlen : toInt entries.length = (2 * pairs : Nat) := by omega
    split
    · next halloc => exact .oom pairs (by omega) hlen.symm halloc
    · next halloc =>
      have halloc : t.allocated = true := (Bool.not_eq_false _).mp halloc
      rw [hpairs, hlen]
      have hstart : Filled t.integers entries 0 (CArray.fill pairs ⟨false, 0, false, 0⟩) [] :=
        ⟨rfl, rfl, CArray.first_zero _⟩
      rcases fillSyms_cases (show 2 * pairs ≤ entries.length by omega) (pairs + 1)
          (Nat.zero_le pairs) hstart (by omega) with
        ⟨syms, ds, hrun, hfilled⟩ | ⟨v, hv, hbad, hrun⟩
      · have hcells : syms.cells = symbols ds := by
          rw [← hfilled.stored, CArray.first, List.take_of_length_le (by rw [syms.size])]
        rw [show fillSyms t.integers entries _ (pairs + 1) 1 0 _ = _ from hrun, Option.map_some]
        simp only [hcells]
        exact .sent pairs syms ds (by omega) hlen.symm halloc hfilled
      · rw [show fillSyms t.integers entries _ (pairs + 1) 1 0 _ = _ from hrun, Option.map_some]
        exact .bad pairs v (by omega) hlen.symm halloc hv hbad

/-- The answer is the one of the method without the data. -/
theorem fSendRaw_answer (t : Turn) (entries : List Value) (k : Nat) :
    ∃ run badEntry, fSendRaw t (.table entries) = some run ∧
      (badEntry = none ↔ ∀ v ∈ entries.take (toInt entries.length).toNat,
        t.integers.checkInteger v ≠ none) ∧
      run.answer.map (Except.map .boolean) = (PeriphHandle.fSendRaw k true true
        (.table (toInt entries.length).toNat t.allocated badEntry)
        (t.transmitted && t.waited)).answer := by
  have hrun := fSendRaw_table t entries
  generalize fSendRaw t (.table entries) = r at hrun
  have hexists : ∀ P : Prop, ∃ badEntry : Option String, badEntry = none ↔ P := by
    intro P
    by_cases h : P
    · exact ⟨none, iff_of_true rfl h⟩
    · exact ⟨some "", iff_of_false (by simp) h⟩
  cases hrun with
  | count hcount =>
    obtain ⟨badEntry, hbad⟩ := hexists _
    refine ⟨_, badEntry, rfl, hbad, ?_⟩
    unfold PeriphHandle.fSendRaw
    simp only
    rw [if_pos (by omega)]
    rfl
  | oom pairs hpairs hlen halloc =>
    obtain ⟨badEntry, hbad⟩ := hexists _
    refine ⟨_, badEntry, rfl, hbad, ?_⟩
    unfold PeriphHandle.fSendRaw
    simp only
    rw [if_neg (by omega), if_pos halloc]
    rfl
  | bad pairs v hpairs hlen halloc hv hbad =>
    refine ⟨_, some (t.badInteger v), rfl, iff_of_false (by simp) fun hall => ?_, ?_⟩
    · exact hall v (by rwa [← hlen, Int.toNat_natCast]) hbad
    · unfold PeriphHandle.fSendRaw
      simp only
      rw [if_neg (by omega), if_neg (by rw [halloc]; decide)]
      rfl
  | sent pairs syms ds hpairs hlen halloc hfilled =>
    refine ⟨_, none, rfl, iff_of_true rfl fun v hv => ?_, ?_⟩
    · rw [← hlen, Int.toNat_natCast] at hv
      obtain ⟨d, -, hd⟩ := (mem_of_converted hfilled.converted).1 v hv
      rw [hd]
      exact Option.some_ne_none d
    · have hright : PeriphHandle.fSendRaw k true true
          (.table (toInt entries.length).toNat t.allocated none) (t.transmitted && t.waited) =
          PeriphHandle.rmtTransmit k true true (t.transmitted && t.waited) := by
        unfold PeriphHandle.fSendRaw
        simp only
        rw [if_neg (by omega), if_neg (by rw [halloc]; decide)]
      rw [hright]
      unfold send
      cases t.transmitted <;> cases t.waited <;> rfl

def Call.isTransmit : Call → Bool
  | .transmit _ | .transmitBytes _ => true
  | _ => false

/-- What `send_raw` owes to a table: the driver gets symbols that decode to what
is listed, or an error is raised, with nothing sent and the buffer freed. -/
inductive SentAsGiven (N : Integers) (entries : List Value) (run : Run) : Prop
  | sent (syms : List Symbol) (ds : List Int) : .transmit syms ∈ run.calls →
      entries.map N.checkInteger = ds.map some → train syms = wave ds →
      SentAsGiven N entries run
  | raised (msg : String) : run.answer = some (.error msg) →
      (∀ c ∈ run.calls, c.isTransmit = false) →
      (∀ pairs, .calloc pairs ∈ run.calls → run.calls.count .free = 1) →
      SentAsGiven N entries run

/-- No buffer is allocated, or the length is an `int` and every entry fits the
field of its duration. -/
def Sends (t : Turn) (entries : List Value) : Prop :=
  toInt entries.length ≤ 0 ∨ t.allocated = false ∨
    entries.length < 2147483648 ∧
      ∀ v ∈ entries, ∃ d, t.integers.checkInteger v = some d ∧ FitsSymbol d

theorem transmit_mem_send (t : Turn) (cs : List Call) (c : Call) (after : List Call) :
    c ∈ (send t cs c after).calls := by
  unfold send
  split
  · exact List.mem_append_right _ List.mem_cons_self
  · split
    · exact List.mem_append_right _ List.mem_cons_self
    · exact List.mem_append_left _ (List.mem_append_right _ List.mem_cons_self)

theorem transmit_of_mem_send {t : Turn} {pairs : Nat} {syms syms' : List Symbol}
    (h : .transmit syms' ∈ (send t [.calloc pairs] (.transmit syms) [.free]).calls) :
    syms' = syms := by
  unfold send at h
  split at h
  · simpa using h
  · split at h
    · simpa using h
    · simpa using h

/-- **Pulse trains.**  A table of even positive length is sent as it is given, or
refused cleanly, exactly if no buffer is allocated or all of it fits. -/
theorem rmt_send_iff (t : Turn) (entries : List Value) (hpos : 0 < entries.length)
    (heven : entries.length % 2 = 0) :
    (∃ run, fSendRaw t (.table entries) = some run ∧ SentAsGiven t.integers entries run) ↔
      Sends t entries := by
  have heven' : toInt entries.length % 2 = 0 := by
    rw [toInt_eq]
    omega
  have hrun := fSendRaw_table t entries
  generalize fSendRaw t (.table entries) = r at hrun
  have hclean : ∀ msg, SentAsGiven t.integers entries ⟨[], some (.error msg)⟩ := fun msg =>
    .raised msg rfl (fun c hc => absurd hc List.not_mem_nil) fun p hp => absurd hp List.not_mem_nil
  cases hrun with
  | count hcount => exact iff_of_true ⟨_, rfl, hclean _⟩ (Or.inl (by omega))
  | oom pairs _ _ halloc => exact iff_of_true ⟨_, rfl, hclean _⟩ (Or.inr (Or.inl halloc))
  | bad pairs v hpairs hlen halloc hv hbad =>
    refine iff_of_false ?_ ?_
    · rintro ⟨run, hrun, hgiven⟩
      cases hrun
      cases hgiven with
      | sent syms ds hmem => simp at hmem
      | raised msg _ _ hfree =>
        have hcount := hfree pairs List.mem_cons_self
        rw [List.count_eq_zero.mpr (by simp)] at hcount
        cases hcount
    · rintro (hneg | hnone | ⟨-, hfits⟩)
      · omega
      · rw [halloc] at hnone
        cases hnone
      · obtain ⟨d, hd, -⟩ := hfits v (List.mem_of_mem_take hv)
        rw [hbad] at hd
        cases hd
  | sent pairs syms ds hpairs hlen halloc hfilled =>
    have hds : ds.length % 2 = 0 := by rw [hfilled.length]; omega
    have hmem := transmit_mem_send t [.calloc pairs] (.transmit (symbols ds)) [.free]
    have hle : toInt entries.length ≤ entries.length ∧
        (toInt entries.length = entries.length ↔ entries.length < 2147483648) := by
      rw [toInt_eq] at hlen ⊢
      omega
    constructor
    · rintro ⟨run, hrun, hgiven⟩
      cases hrun
      cases hgiven with
      | sent syms' ds' hmem' hconv htrain =>
        obtain rfl := transmit_of_mem_send hmem'
        have hlen' : ds'.length = entries.length := by
          have := congrArg List.length hconv
          rwa [List.length_map, List.length_map, eq_comm] at this
        -- the symbols are as many as the listed durations need
        have hall : entries.length ≤ 2 * pairs := by
          have hshort := length_train (symbols ds)
          rw [htrain, length_wave ds' (by omega), hlen', length_symbols ds hds, hfilled.length]
            at hshort
          exact hshort
        have hsame : ds' = ds := by
          have hconv' := hfilled.converted
          rw [List.take_of_length_le hall, hconv] at hconv'
          exact (List.map_inj_right fun _ _ => Option.some.inj).mp hconv'
        rw [hsame] at htrain hconv
        have hfits := (train_symbols_iff ds hds).mp htrain
        refine Or.inr (Or.inr ⟨by omega, fun v hv => ?_⟩)
        obtain ⟨d, hd, heq⟩ := (mem_of_converted hconv).1 v hv
        exact ⟨d, heq, hfits d hd⟩
      | raised msg _ hquiet _ => exact absurd (hquiet _ hmem) (by simp [Call.isTransmit])
    · rintro (hneg | hnone | ⟨hint, hfits⟩)
      · omega
      · rw [halloc] at hnone
        cases hnone
      · have hconv := hfilled.converted
        rw [List.take_of_length_le (by omega)] at hconv
        refine ⟨_, rfl, .sent (symbols ds) ds hmem hconv ((train_symbols_iff ds hds).mpr ?_)⟩
        intro d hd
        obtain ⟨v, hv, heq⟩ := (mem_of_converted hconv).2 d hd
        obtain ⟨d', hd', hfit⟩ := hfits v hv
        rw [heq] at hd'
        cases hd'
        exact hfit

/-- Every call goes through. -/
def plainTurn : Turn where
  integers := ⟨fun _ => none, fun _ => none⟩
  badInteger := fun _ => "number expected"
  allocated := true
  transmitted := true
  waited := true

theorem rmt_send_short : ∃ run, fSendRaw plainTurn (.table [.integer 90, .integer 45]) = some run ∧
    SentAsGiven plainTurn.integers [.integer 90, .integer 45] run := by
  apply (rmt_send_iff plainTurn [.integer 90, .integer 45] (by decide) rfl).mpr
  refine Or.inr (Or.inr ⟨by decide, fun v hv => ?_⟩)
  rcases List.mem_cons.mp hv with rfl | hv
  · exact ⟨90, rfl, by decide, by decide⟩
  · obtain rfl := List.mem_singleton.mp hv
    exact ⟨45, rfl, by decide, by decide⟩

/-- 40000 ticks are sent as 7232. -/
theorem rmt_long_pulse : ¬ ∀ t entries, 0 < entries.length → entries.length % 2 = 0 →
    ∃ run, fSendRaw t (.table entries) = some run ∧ SentAsGiven t.integers entries run := by
  intro h
  obtain ⟨run, hrun, hgiven⟩ :=
    h plainTurn [.integer 40000, .integer 1] (by decide) rfl
  obtain rfl := Option.some.inj (hrun : some (send plainTurn _ _ _) = some run)
  cases hgiven with
  | sent syms ds hmem hconv htrain =>
    obtain rfl : [40000, 1] = ds := (List.map_inj_right fun _ _ => Option.some.inj).mp hconv
    obtain rfl := transmit_of_mem_send hmem
    exact absurd htrain (by decide)
  | raised msg hans => cases hans

end Rmt

end CLIos
