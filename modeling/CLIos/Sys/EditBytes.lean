import CLIos.Lib.CString
import CLIos.Sys.EditTable

/-!
# The line table byte by byte

`L_FS_EDIT` between reading and writing back (components/SYS/sys_littlefs.c): the
array `lines` of 64 rows of 64 bytes and `count`.  Rows from `count` on hold what
the stack held.  `strcpy` and `strncpy` work on bytes, and every counter is checked
like the rows; a row without a NUL may not be read.

Seen as strings, the rows are those of `EditLines`, and each operation does to the
strings what the one on `EditLines` does.  So the code between reading and writing
updates a list of lines.
-/

namespace CLIos

open CMem TextFile

/-- `char [CHAR_BUFFER_SIZE]` -/
abbrev CharRow := CArray UInt8 CHAR_BUFFER_SIZE

/-- `char lines[CHAR_BUFFER_SIZE][CHAR_BUFFER_SIZE]` -/
abbrev CharRows := CArray CharRow CHAR_BUFFER_SIZE

namespace CharRows

/-- `strcpy(lines[i], lines[i+1])` -/
def copyNext (i : Nat) (lines : CharRows) : Option CharRows :=
  (lines.load i).bind fun dst =>
  (lines.load (i + 1)).bind fun src =>
  (dst.strcpy src).bind fun row => lines.store i row

/-- `lines[i][0] = '\0'` -/
def makeEmpty (i : Nat) (lines : CharRows) : Option CharRows :=
  (lines.load i).bind fun row =>
  (row.store 0 0).bind fun row => lines.store i row

/-- `strncpy(lines[i], content, sizeof(lines[i])-1); lines[i][sizeof(lines[i])-1] = '\0';` -/
def copyContent (i : Nat) (content : Bytes) (lines : CharRows) : Option CharRows :=
  (lines.load i).bind fun row =>
  (row.strncpy content (CHAR_BUFFER_SIZE - 1)).bind fun row =>
  (row.store (CHAR_BUFFER_SIZE - 1) 0).bind fun row => lines.store i row

end CharRows

structure CharTable where
  lines : CharRows
  count : Nat

namespace CharTable

def deleteLine (t : CharTable) (index : Nat) : Option CharTable :=
  (strictLoop8 (fun i => decide (i < t.count - 1)) CharRows.copyNext index t.lines).bind fun lines =>
  (pred8 t.count).bind fun count => some { lines := lines, count := count }

/-- `if (index >= count) { .. }` -/
def extend (t : CharTable) (index : Nat) : Option CharTable :=
  if t.count ≤ index then
    (strictLoop8 (fun i => decide (i < index)) CharRows.makeEmpty t.count t.lines).bind fun lines =>
    (succ8 index).bind fun count => some { lines := lines, count := count }
  else some t

def replaceLine (t : CharTable) (index : Nat) (content : Bytes) : Option CharTable :=
  (t.extend index).bind fun t =>
  (t.lines.copyContent index content).bind fun lines => some { t with lines := lines }

/-- From `if (strlen(content) == 0)` to the second `fopen`. -/
def edit (t : CharTable) (index : Nat) (content : Bytes) : Option (Except String CharTable) :=
  if cstr content = [] then
    if t.count ≤ index then some (.error "index out of range for delete")
    else (t.deleteLine index).map .ok
  else (t.replaceLine index content).map .ok

end CharTable

/-! ## The rows as strings -/

namespace CharRows

/-- A string for each row. -/
def strs (lines : CharRows) : CArray Bytes CHAR_BUFFER_SIZE := lines.map CArray.str

/-- The first `k` rows are strings. -/
def Strings (k : Nat) (lines : CharRows) : Prop :=
  ∀ (i : Nat) (row : CharRow), i < k → lines.load i = some row → row.Terminated

variable {lines lines' : CharRows} {k i : Nat}

theorem Strings.store {row : CharRow} (h : Strings k lines) (hrow : row.Terminated)
    (hs : lines.store i row = some lines') : Strings k lines' := by
  intro j row' hj hload
  by_cases hij : i = j
  · subst hij
    rw [CArray.load_store_self hs] at hload
    cases hload
    exact hrow
  · rw [CArray.load_store_ne hs hij] at hload
    exact h j row' hj hload

/-- One string more. -/
theorem Strings.store_succ {row : CharRow} (h : Strings k lines) (hrow : row.Terminated)
    (hs : lines.store k row = some lines') : Strings (k + 1) lines' := by
  intro j row' hj hload
  rcases Nat.lt_succ_iff_lt_or_eq.mp hj with hj | rfl
  · exact h.store hrow hs j row' hj hload
  · rw [CArray.load_store_self hs] at hload
    cases hload
    exact hrow

theorem copyNext_spec (h : Strings k lines) (hi : i + 1 < k) (hk : k ≤ 64) :
    ∃ lines', lines.copyNext i = some lines' ∧
      (lines.strs.load (i + 1)).bind (lines.strs.store i) = some lines'.strs ∧
      Strings k lines' := by
  obtain ⟨dst, hdst⟩ := lines.load_eq_some i (show i < 64 by omega)
  obtain ⟨src, hsrc⟩ := lines.load_eq_some (i + 1) (show i + 1 < 64 by omega)
  obtain ⟨row, hcopy, hrow, hstr⟩ := CArray.strcpy_spec dst (h (i + 1) src hi hsrc)
  obtain ⟨lines', hstore⟩ := lines.store_eq_some i row (show i < 64 by omega)
  refine ⟨lines', ?_, ?_, h.store hrow hstore⟩
  · unfold copyNext
    rw [hdst, Option.bind_some, hsrc, Option.bind_some, hcopy, Option.bind_some, hstore]
  · unfold strs
    rw [CArray.load_map, hsrc, Option.map_some, Option.bind_some, ← hstr]
    exact CArray.store_map CArray.str hstore

theorem makeEmpty_spec (h : Strings k lines) (hk : k < 64) :
    ∃ lines', lines.makeEmpty k = some lines' ∧ lines.strs.store k [] = some lines'.strs ∧
      Strings (k + 1) lines' := by
  obtain ⟨row, hload⟩ := lines.load_eq_some k hk
  obtain ⟨row', hzero⟩ := row.store_eq_some 0 0 (by decide)
  obtain ⟨hrow, hstr⟩ := CArray.store_zero_spec hzero
  obtain ⟨lines', hstore⟩ := lines.store_eq_some k row' hk
  refine ⟨lines', ?_, ?_, h.store_succ hrow hstore⟩
  · unfold makeEmpty
    rw [hload, Option.bind_some, hzero, Option.bind_some, hstore]
  · rw [← hstr]
    exact CArray.store_map CArray.str hstore

theorem copyContent_spec (lines : CharRows) (content : Bytes) (hi : i < 64) :
    ∃ lines' row, lines.copyContent i content = some lines' ∧ lines.store i row = some lines' ∧
      row.Terminated ∧ row.str = (cstr content).take 63 := by
  obtain ⟨row, hload⟩ := lines.load_eq_some i hi
  obtain ⟨row₁, row₂, hcopy, hnul, hrow, hstr⟩ :=
    CArray.strncpy_spec row content (show CHAR_BUFFER_SIZE - 1 < CHAR_BUFFER_SIZE by decide)
  obtain ⟨lines', hstore⟩ := lines.store_eq_some i row₂ hi
  refine ⟨lines', row₂, ?_, hstore, hrow, hstr⟩
  unfold copyContent
  rw [hload, Option.bind_some, hcopy, Option.bind_some, hnul, Option.bind_some, hstore]

end CharRows

namespace CharTable

open CharRows

/-- `count` fits, and the lines are strings. -/
structure Valid (t : CharTable) : Prop where
  count_le : t.count ≤ 64
  strings : Strings t.count t.lines

def rows (t : CharTable) : EditLines := ⟨t.lines.strs, t.count⟩

/-- The list of lines. -/
def list (t : CharTable) : List Bytes := (t.lines.first t.count).map CArray.str

theorem list_eq (t : CharTable) : t.list = t.rows.lines.first t.rows.count :=
  (CArray.first_map CArray.str t.lines t.count).symm

variable {t : CharTable} {index : Nat}

theorem deleteLine_rows (h : t.Valid) (hi : index < t.count) :
    ∃ t', t.deleteLine index = some t' ∧ t'.Valid ∧ t.rows.deleteLine index = some t'.rows := by
  have hc := h.count_le
  have hpred := pred8_eq (show 0 < t.count by omega)
  have hround : ∀ i lines, decide (i < t.count - 1) = true → Strings t.count lines →
      ∃ lines', copyNext i lines = some lines' ∧
        (lines.strs.load (i + 1)).bind (lines.strs.store i) = some lines'.strs ∧
        Strings t.count lines' := by
    intro i lines htest hI
    have hlt : i < t.count - 1 := of_decide_eq_true htest
    exact copyNext_spec hI (by omega) hc
  obtain ⟨e, he, -⟩ := t.rows.deleteLine_spec index hi hc
  rw [← EditLines.deleteLineStrict_eq t.rows index hi] at he ⊢
  obtain ⟨rows, hloop, -⟩ := Option.bind_eq_some_iff.mp he
  obtain ⟨-, lines, hlines, hrows, -, hI⟩ :=
    strictLoop8_map strs (fun _ => Strings t.count) hround h.strings hloop
  refine ⟨⟨lines, t.count - 1⟩, ?_, ⟨?_, ?_⟩, ?_⟩
  · unfold deleteLine
    have hlines : strictLoop8 (fun i => decide (i < t.count - 1)) copyNext index t.lines =
      some lines := hlines
    rw [hlines, Option.bind_some, hpred, Option.bind_some]
  · show t.count - 1 ≤ 64
    omega
  · intro i row hlt hload
    exact hI i row (Nat.lt_of_lt_of_le hlt (Nat.sub_le _ _)) hload
  · unfold EditLines.deleteLineStrict
    rw [hloop, Option.bind_some, ← hrows]
    show (pred8 t.count).bind _ = _
    rw [hpred]
    rfl

/-- After it all rows but the one at `index` are strings. -/
theorem extend_rows (h : t.Valid) (hi : index ≤ 63) :
    ∃ t', t.extend index = some t' ∧ t'.count ≤ 64 ∧
      (∀ i row, i < t'.count → i ≠ index → t'.lines.load i = some row → row.Terminated) ∧
      (if t.rows.count ≤ index then
        (strictLoop8 (fun i => decide (i < index)) (fun i rows => rows.store i []) t.rows.count
          t.rows.lines).bind
        fun rows => (succ8 index).bind fun count => some ⟨rows, count⟩
      else some t.rows) = some t'.rows := by
  unfold extend
  by_cases hpad : t.count ≤ index
  · have hsucc := succ8_eq (show index < 255 by omega)
    rw [Nat.mod_eq_of_lt (by omega)] at hsucc
    have hround : ∀ i lines, decide (i < index) = true → Strings i lines →
        ∃ lines', makeEmpty i lines = some lines' ∧ lines.strs.store i [] = some lines'.strs ∧
          Strings (i + 1) lines' := by
      intro i lines htest hI
      have hlt : i < index := of_decide_eq_true htest
      exact makeEmpty_spec hI (by omega)
    obtain ⟨rows, hloop, -⟩ := t.rows.pad_spec index (by omega) hpad
    rw [← strictLoop8_eq _ _ fun i s s' hs => Nat.lt_trans (CArray.store_lt hs) (by decide)] at hloop
    obtain ⟨j, lines, hlines, hrows, htest, hI⟩ :=
      strictLoop8_map strs Strings hround h.strings hloop
    have hlines : strictLoop8 (fun i => decide (i < index)) makeEmpty t.count t.lines =
      some lines := hlines
    have hj : ¬ j < index := of_decide_eq_false htest
    refine ⟨⟨lines, index + 1⟩, ?_, ?_, fun i row hlt hne hload => ?_, ?_⟩
    · rw [if_pos hpad, hlines, Option.bind_some, hsucc, Option.bind_some]
    · show index + 1 ≤ 64
      omega
    · have hlt : i < index + 1 := hlt
      exact hI i row (by omega) hload
    · rw [if_pos (show t.rows.count ≤ index from hpad), hloop, Option.bind_some, hsucc,
        Option.bind_some, ← hrows]
      rfl
  · exact ⟨t, if_neg hpad, h.count_le, fun i row hlt _ => h.strings i row hlt, if_neg hpad⟩

theorem replaceLine_rows (h : t.Valid) (hi : index ≤ 63) (content : Bytes) :
    ∃ t', t.replaceLine index content = some t' ∧ t'.Valid ∧
      t.rows.replaceLine index content = some t'.rows := by
  obtain ⟨t₁, hextend, hcount, hstrings, hrows⟩ := extend_rows h hi
  obtain ⟨lines, row, hcopy, hstore, hrow, hstr⟩ := t₁.lines.copyContent_spec content
    (show index < 64 by omega)
  refine ⟨⟨lines, t₁.count⟩, ?_, ⟨hcount, fun i r hlt hload => ?_⟩, ?_⟩
  · unfold replaceLine
    rw [hextend, Option.bind_some, hcopy, Option.bind_some]
  · by_cases hidx : index = i
    · subst hidx
      rw [CArray.load_store_self hstore] at hload
      cases hload
      exact hrow
    · rw [CArray.load_store_ne hstore hidx] at hload
      exact hstrings i r hlt (Ne.symm hidx) hload
  · have hstrs : t₁.rows.lines.store index ((cstr content).take 63) = some lines.strs := by
      rw [← hstr]
      exact CArray.store_map CArray.str hstore
    rw [← EditLines.replaceLineStrict_eq t.rows index content (by omega)]
    unfold EditLines.replaceLineStrict
    rw [hrows, Option.bind_some]
    show (t₁.rows.lines.store index ((cstr content).take 63)).bind _ = _
    rw [hstrs]
    rfl

end CharTable

/-! ## A list of lines -/

/-- The edit of a list of lines. -/
def listEdit (rows : List Bytes) (index : Nat) (content : Bytes) : Except String (List Bytes) :=
  if cstr content = [] then
    if index < rows.length then .ok (rows.eraseIdx index)
    else .error "index out of range for delete"
  else .ok ((padRows rows (index + 1)).set index ((cstr content).take 63))

/-- Extending the list and setting the element. -/
theorem set_padRows (rows : List Bytes) (n : Nat) (row : Bytes) :
    (padRows rows (n + 1)).set n row = putRow rows n row := by
  apply List.ext_getElem?
  intro j
  rw [List.getElem?_set, getElem?_putRow, getElem?_padRows, length_padRows]
  by_cases hj : j < n
  · rw [if_neg (by omega), if_pos (by omega), if_pos hj]
  · by_cases heq : j = n
    · rw [if_pos heq.symm, if_pos (by omega), if_neg hj, if_pos heq]
    · rw [if_neg (Ne.symm heq), if_neg (by omega), if_neg hj, if_neg heq]

namespace CharTable

theorem length_list {t : CharTable} (h : t.Valid) : t.list.length = t.count := by
  unfold list
  rw [List.length_map, t.lines.length_first t.count h.count_le]

/-- **Editing.**  Between reading and writing the table of lines is edited as a list:
no row is missed, no counter wraps, every loop ends. -/
theorem edit_list (t : CharTable) (h : t.Valid) (index : Nat) (hi : index ≤ 63)
    (content : Bytes) :
    ∃ r, t.edit index content = some r ∧ (∀ t', r = .ok t' → t'.Valid) ∧
      r.map list = listEdit t.list index content := by
  unfold edit listEdit
  rw [length_list h]
  by_cases hempty : cstr content = []
  · rw [if_pos hempty, if_pos hempty]
    by_cases hlt : index < t.count
    · obtain ⟨t', ht', hvalid, hrows⟩ := deleteLine_rows h hlt
      obtain ⟨e, he, -, hfirst⟩ := t.rows.deleteLine_spec index hlt h.count_le
      obtain rfl : t'.rows = e := Option.some.inj (hrows.symm.trans he)
      refine ⟨.ok t', by rw [if_neg (by omega), ht']; rfl, ?_, ?_⟩
      · rintro _ ⟨⟩
        exact hvalid
      · rw [if_pos hlt, list_eq t, ← hfirst, ← list_eq t']
        rfl
    · refine ⟨_, if_pos (by omega), ?_, (if_neg hlt).symm⟩
      rintro _ ⟨⟩
  · rw [if_neg hempty, if_neg hempty]
    obtain ⟨t', ht', hvalid, hrows⟩ := replaceLine_rows h hi content
    obtain ⟨e, he, -, hfirst⟩ := t.rows.replaceLine_spec index content (by omega) h.count_le
    obtain rfl : t'.rows = e := Option.some.inj (hrows.symm.trans he)
    refine ⟨.ok t', by rw [ht']; rfl, ?_, ?_⟩
    · rintro _ ⟨⟩
      exact hvalid
    · rw [set_padRows, list_eq t, ← hfirst, ← list_eq t']
      rfl

/-- Two empty lines. -/
def blank : CharTable := ⟨CArray.fill _ (CArray.fill _ 0), 2⟩

theorem blank_valid : blank.Valid where
  count_le := by decide
  strings := by
    intro i row _ hload
    have hmem : row ∈ List.replicate CHAR_BUFFER_SIZE (CArray.fill CHAR_BUFFER_SIZE (0 : UInt8)) :=
      List.mem_of_getElem? hload
    rw [List.eq_of_mem_replicate hmem]
    exact List.mem_replicate.mpr ⟨by decide, rfl⟩

theorem edit_list_blank :
    ∃ r, blank.edit 3 [97] = some r ∧ r.map list = .ok [[], [], [], [97]] := by
  obtain ⟨r, hr, -, hlist⟩ := edit_list blank blank_valid 3 (by decide) [97]
  exact ⟨r, hr, hlist⟩

end CharTable

end CLIos
