import CLIos.Core.Shell
import CLIos.Lib.TextFile

/-!
# Files for Lua code

`L_FS_WRITE`, `L_FS_READ` and `L_FS_EDIT` of components/SYS/sys_littlefs.c, on
one file: `none` if it does not exist, its bytes otherwise.  A function returns a
value, or nil and a message (`Except`).  `fopen` for writing may fail and
`fwrite` accepts as much as it likes; what the C library has accepted it stores.

A row of the array `lines` is the C string in it.  An access outside the array
has no defined effect, and the whole call is `none`.
-/

namespace CLIos

open CMem TextFile

abbrev File := Option Bytes

/-! ## L_FS_WRITE -/

structure WriteCall where
  /-- `luaL_optstring(L, 2, "")` -/
  content : Bytes
  /-- `fopen` does not return NULL -/
  opens : Bool
  /-- what `fwrite` returns -/
  accepted : Nat
  le : accepted ≤ (cstr content).length

/-- `filename` is the C string the message names. -/
def lFsWrite (filename : String) (file : File) (w : WriteCall) : Except String Bool × File :=
  if w.opens then
    (.ok (decide (0 < w.accepted)), some (file.getD [] ++ (cstr w.content).take w.accepted))
  else (.error ("failed to open file: " ++ filename), file)

/-! ## L_FS_READ -/

/-- A table of strings with integer keys. -/
abbrev LuaTable := Nat → Option Bytes

def settable (t : LuaTable) (k : Nat) (v : Bytes) : LuaTable :=
  fun j => if j = k then some v else t j

/-- The C string in the buffer, its newline overwritten. -/
def rowOf (buf : Bytes) : Bytes := trimNewline (cstr buf)

/-- `index` and the table after one more row; `index` is a `uint8_t`. -/
def addRow (st : Nat × LuaTable) (row : Bytes) : Nat × LuaTable :=
  ((st.1 + 1) % 256, settable st.2 st.1 row)

def readRound (st : Nat × LuaTable) (buf : Bytes) : Option (Nat × LuaTable) :=
  some (addRow st (rowOf buf))

def lFsRead (file : File) : Option (Except String LuaTable) :=
  match file with
  | none => some (.error "file not found")
  | some s =>
    (whileFgets (CHAR_BUFFER_SIZE - 1) readRound s (1, fun _ => none)).map fun st => .ok st.2

/-! ## L_FS_EDIT -/

/-- The array `lines` and `count`. -/
structure EditLines where
  lines : CArray Bytes CHAR_BUFFER_SIZE
  count : Nat

/-- One round of the reading loop.  `count < CHAR_BUFFER_SIZE` is tested after
`fgets` has stored into the row. -/
def EditLines.readRound (e : EditLines) (buf : Bytes) : Option EditLines :=
  (e.lines.store e.count (rowOf buf)).bind fun lines =>
  some { lines := lines, count := (e.count + 1) % 256 }

def EditLines.deleteLine (e : EditLines) (index : Nat) : Option EditLines :=
  (loop8 (fun i => decide (i < e.count - 1))
    (fun i lines => (lines.load (i + 1)).bind fun row => lines.store i row) index e.lines).bind
  fun lines => some { lines := lines, count := e.count - 1 }

def EditLines.replaceLine (e : EditLines) (index : Nat) (content : Bytes) : Option EditLines :=
  (if e.count ≤ index then
      (loop8 (fun i => decide (i < index)) (fun i lines => lines.store i []) e.count e.lines).bind
      fun lines => some { lines := lines, count := (index + 1) % 256 }
    else some e).bind fun e =>
  (e.lines.store index ((cstr content).take (CHAR_BUFFER_SIZE - 1))).bind fun lines =>
  some { e with lines := lines }

/-- The loop that writes the rows. -/
def EditLines.print (e : EditLines) : Option Bytes :=
  loop8 (fun i => decide (i < e.count))
    (fun i out => (e.lines.load i).map fun row => out ++ (row ++ [newline])) 0 []

/-- From the second `fopen` on. -/
def EditLines.save (e : EditLines) (file : File) (writable : Bool) :
    Option (Except String Bool × File) :=
  if writable then e.print.map fun out => (.ok true, some out)
  else some (.error "failed to open file for write", file)

/-- `lines` starts with what the stack holds; `writable` tells whether `fopen`
for writing succeeds. -/
def lFsEdit (stack : CArray Bytes CHAR_BUFFER_SIZE) (file : File) (i : Int) (content : Bytes)
    (writable : Bool) : Option (Except String Bool × File) :=
  let index := (i % 256).toNat
  if index = 0 ∨ CHAR_BUFFER_SIZE < index then some (.error "index out of range", file)
  else
    match file with
    | none => some (.error "failed to open file for read", file)
    | some s =>
      (whileFgets (CHAR_BUFFER_SIZE - 1) EditLines.readRound s ⟨stack, 0⟩).bind fun e =>
      if cstr content = [] ∧ e.count ≤ index then
        some (.error "index out of range for delete", file)
      else
        (if cstr content = [] then e.deleteLine index else e.replaceLine index content).bind fun e =>
        e.save file writable

/-! ## What they do to the rows -/

/-- The rows of a file, as both functions read them. -/
def readRows (s : Bytes) : List Bytes := (pieces (CHAR_BUFFER_SIZE - 1) s).map rowOf

/-- The rows with empty ones up to `n`. -/
def padRows (rows : List Bytes) (n : Nat) : List Bytes :=
  rows ++ List.replicate (n - rows.length) []

/-- The rows with `row` in the place `n`, counted from 0. -/
def putRow (rows : List Bytes) (n : Nat) (row : Bytes) : List Bytes :=
  (padRows rows n).take n ++ row :: rows.drop (n + 1)

/-- The table with the rows under 1, 2, and so on, the key a `uint8_t`. -/
def tableOf (rows : List Bytes) : LuaTable :=
  (rows.foldl addRow (1, fun _ => none)).2

theorem mem_readRows (s : Bytes) : ∀ r ∈ readRows s, newline ∉ r ∧ 0 ∉ r ∧ r.length ≤ 63 :=
  mem_rows 63 (by omega) s

/-- The rows of a text file are the lines of the wrapped file. -/
theorem readRows_eq_lines (s : Bytes) (h : 0 ∉ s) : readRows s = lines (wrap 63 s) :=
  (map_trim_cstr_pieces 63 s h).trans (map_trim_pieces 63 (by omega) s)

/-- Rows written with a newline each and read again. -/
theorem readRows_unlines (rows : List Bytes)
    (h : ∀ r ∈ rows, newline ∉ r ∧ 0 ∉ r ∧ r.length ≤ 63) :
    readRows (unlines rows) = rows.flatMap (reread 63) := by
  have hzero : (0 : UInt8) ∉ unlines rows := by
    intro h0
    obtain ⟨r, hr, h0⟩ := List.mem_flatMap.mp h0
    rcases List.mem_append.mp h0 with h0 | h0
    · exact (h r hr).2.1 h0
    · exact absurd (List.mem_singleton.mp h0) (by decide)
  apply (map_trim_cstr_pieces 63 _ hzero).trans
  exact map_trim_pieces_unlines 63 (by omega) rows fun r hr => ⟨(h r hr).1, (h r hr).2.2⟩

theorem length_padRows (rows : List Bytes) (n : Nat) :
    (padRows rows n).length = max rows.length n := by
  unfold padRows
  rw [List.length_append, List.length_replicate]
  omega

theorem putRow_of_le {rows : List Bytes} {n : Nat} (row : Bytes) (h : rows.length ≤ n) :
    putRow rows n row = padRows rows n ++ [row] := by
  unfold putRow
  rw [List.take_of_length_le (by rw [length_padRows]; omega), List.drop_eq_nil_of_le (by omega)]

theorem putRow_of_lt {rows : List Bytes} {n : Nat} (row : Bytes) (h : n < rows.length) :
    putRow rows n row = rows.set n row := by
  unfold putRow padRows
  rw [show n - rows.length = 0 by omega, List.replicate_zero, List.append_nil,
    List.set_eq_take_append_cons_drop, if_pos h]

theorem getElem?_padRows (rows : List Bytes) (n j : Nat) :
    (padRows rows n)[j]? = if j < n then some (rows[j]?.getD []) else rows[j]? := by
  unfold padRows
  by_cases hj : j < rows.length
  · rw [List.getElem?_append_left hj, List.getElem?_eq_getElem hj]
    split <;> rfl
  · rw [List.getElem?_append_right (by omega), List.getElem?_replicate,
      List.getElem?_eq_none (by omega)]
    by_cases hn : j < n
    · rw [if_pos (by omega), if_pos hn]
      rfl
    · rw [if_neg (by omega), if_neg hn]

theorem length_take_padRows (rows : List Bytes) (n : Nat) : ((padRows rows n).take n).length = n := by
  rw [List.length_take, length_padRows]
  omega

theorem length_putRow (rows : List Bytes) (n : Nat) (row : Bytes) :
    (putRow rows n row).length = max rows.length (n + 1) := by
  unfold putRow
  rw [List.length_append, length_take_padRows, List.length_cons, List.length_drop]
  omega

theorem getElem?_putRow (rows : List Bytes) (n : Nat) (row : Bytes) (j : Nat) :
    (putRow rows n row)[j]? =
      if j < n then some (rows[j]?.getD []) else if j = n then some row else rows[j]? := by
  have hlen := length_take_padRows rows n
  unfold putRow
  by_cases hj : j < n
  · rw [List.getElem?_append_left (by omega), List.getElem?_take_of_lt hj, getElem?_padRows,
      if_pos hj, if_pos hj]
  · rw [List.getElem?_append_right (by omega), hlen, if_neg hj]
    by_cases heq : j = n
    · rw [if_pos heq, heq, Nat.sub_self]
      rfl
    · obtain ⟨m, rfl⟩ : ∃ m, j = n + 1 + m := ⟨j - (n + 1), by omega⟩
      rw [if_neg heq, show n + 1 + m - n = m + 1 by omega, List.getElem?_cons_succ,
        List.getElem?_drop]

/-! ## L_FS_READ refined -/

theorem lFsRead_eq (s : Bytes) : lFsRead (some s) = some (.ok (tableOf (readRows s))) := by
  have hfold : ∀ (ps : List Bytes) (st : Nat × LuaTable),
      ps.foldlM readRound st = some ((ps.map rowOf).foldl addRow st) := by
    intro ps
    induction ps with
    | nil => exact fun st => rfl
    | cons p ps ih => exact fun st => ih _
  show (whileFgets 63 readRound s (1, fun _ => none)).map _ = _
  rw [whileFgets_eq 63 (by omega), hfold]
  rfl

theorem foldl_addRow (rows : List Bytes) (n : Nat) (t : LuaTable) (h : n + rows.length ≤ 256)
    (k : Nat) : (rows.foldl addRow (n, t)).2 k =
      if n ≤ k ∧ k < n + rows.length then rows[k - n]? else t k := by
  induction rows generalizing n t with
  | nil =>
    rw [if_neg (by rw [List.length_nil]; omega)]
    rfl
  | cons r rows ih =>
    rw [List.length_cons] at h ⊢
    by_cases hnil : rows = []
    · subst hnil
      show (if k = n then some r else t k) = _
      by_cases hk : k = n
      · rw [if_pos hk, if_pos (by rw [List.length_nil]; omega), hk, Nat.sub_self]
        rfl
      · rw [if_neg hk, if_neg (by rw [List.length_nil]; omega)]
    · have hpos : 0 < rows.length := List.length_pos_iff.mpr hnil
      show (rows.foldl addRow ((n + 1) % 256, settable t n r)).2 k = _
      rw [Nat.mod_eq_of_lt (by omega), ih (n + 1) (settable t n r) (by omega)]
      by_cases hk : k = n
      · subst hk
        rw [if_neg (by omega), if_pos (by omega), Nat.sub_self]
        exact if_pos rfl
      · by_cases hin : n + 1 ≤ k ∧ k < n + 1 + rows.length
        · rw [if_pos hin, if_pos (by omega), show k - n = k - (n + 1) + 1 by omega,
            List.getElem?_cons_succ]
        · rw [if_neg hin, if_neg (by omega)]
          exact if_neg hk

/-- Up to 255 rows the table holds the rows under their numbers. -/
theorem tableOf_eq (rows : List Bytes) (h : rows.length ≤ 255) (k : Nat) :
    tableOf rows k = if k = 0 then none else rows[k - 1]? := by
  have hfold := foldl_addRow rows 1 (fun _ => none) (by omega) k
  unfold tableOf
  rw [hfold]
  by_cases hk : k = 0
  · rw [if_pos hk, if_neg (by omega)]
  · rw [if_neg hk]
    by_cases hlt : k < 1 + rows.length
    · rw [if_pos (by omega)]
    · rw [if_neg (by omega), List.getElem?_eq_none (by omega)]

/-- A key once set stays set. -/
theorem foldl_addRow_ne_none (rows : List Bytes) (st : Nat × LuaTable) (k : Nat)
    (h : st.2 k ≠ none) : (rows.foldl addRow st).2 k ≠ none := by
  induction rows generalizing st with
  | nil => exact h
  | cons r rows ih =>
    apply ih
    show (if k = st.1 then some r else st.2 k) ≠ none
    split
    · simp
    · exact h

theorem foldl_addRow_fst (rows : List Bytes) (n : Nat) (t : LuaTable) (hn : n < 256) :
    (rows.foldl addRow (n, t)).1 = (n + rows.length) % 256 := by
  induction rows generalizing n t with
  | nil => exact (Nat.mod_eq_of_lt hn).symm
  | cons r rows ih =>
    show (rows.foldl addRow ((n + 1) % 256, _)).1 = _
    rw [ih _ _ (Nat.mod_lt _ (by omega)), List.length_cons]
    omega

/-- The 256th row goes under the key 0. -/
theorem tableOf_zero (rows : List Bytes) (h : 255 < rows.length) : tableOf rows 0 ≠ none := by
  have hsplit : rows = rows.take 255 ++ rows[255] :: rows.drop 256 := by
    rw [← List.drop_eq_getElem_cons h, List.take_append_drop]
  unfold tableOf
  rw [hsplit, List.foldl_append, List.foldl_cons]
  apply foldl_addRow_ne_none
  have hfst := foldl_addRow_fst (rows.take 255) 1 (fun _ => none) (by omega)
  rw [List.length_take, Nat.min_eq_left (by omega)] at hfst
  show (if 0 = _ then some rows[255] else _) ≠ none
  rw [hfst]
  simp

/-! ## L_FS_EDIT refined -/

theorem foldlM_readRound (ps : List Bytes) (e : EditLines) (h : e.count + ps.length ≤ 64) :
    ∃ e', ps.foldlM EditLines.readRound e = some e' ∧ e'.count = e.count + ps.length ∧
      e'.lines.first e'.count = e.lines.first e.count ++ ps.map rowOf := by
  induction ps generalizing e with
  | nil => exact ⟨e, rfl, rfl, (List.append_nil _).symm⟩
  | cons p ps ih =>
    rw [List.length_cons] at h
    obtain ⟨lines, hl⟩ := e.lines.store_eq_some e.count (rowOf p) (show _ < 64 by omega)
    have hmod : (e.count + 1) % 256 = e.count + 1 := Nat.mod_eq_of_lt (by omega)
    obtain ⟨e', he', hcount, hfirst⟩ := ih ⟨lines, e.count + 1⟩ (by show _ + 1 + _ ≤ 64; omega)
    refine ⟨e', ?_, by rw [hcount, List.length_cons]; show _ + 1 + _ = _; omega, ?_⟩
    · rw [List.foldlM_cons]
      unfold EditLines.readRound
      rw [hl, Option.bind_some, hmod]
      exact he'
    · rw [hfirst, List.map_cons]
      show lines.first (e.count + 1) ++ _ = _
      rw [CArray.first_store_succ hl, List.append_assoc]
      rfl

/-- The 65th piece is stored outside the array. -/
theorem foldlM_readRound_none (ps : List Bytes) (e : EditLines) (hc : e.count ≤ 64)
    (h : 64 < e.count + ps.length) : ps.foldlM EditLines.readRound e = none := by
  induction ps generalizing e with
  | nil =>
    rw [List.length_nil] at h
    omega
  | cons p ps ih =>
    rw [List.length_cons] at h
    rw [List.foldlM_cons]
    unfold EditLines.readRound
    cases hl : e.lines.store e.count (rowOf p) with
    | none => rfl
    | some lines =>
      have hlt : e.count < 64 := CArray.store_lt hl
      rw [Option.bind_some, Nat.mod_eq_of_lt (by omega)]
      exact ih ⟨lines, e.count + 1⟩ hlt (by show 64 < _ + 1 + _; omega)

theorem EditLines.deleteLine_spec (e : EditLines) (index : Nat) (hi : index < e.count)
    (hc : e.count ≤ 64) : ∃ e', e.deleteLine index = some e' ∧ e'.count = e.count - 1 ∧
      e'.lines.first e'.count = (e.lines.first e.count).eraseIdx index := by
  let I : Nat → CArray Bytes CHAR_BUFFER_SIZE → Prop := fun i lines =>
    index ≤ i ∧ ∀ j, lines.load j =
      if index ≤ j ∧ j < i then e.lines.load (j + 1) else e.lines.load j
  have hbody : ∀ i lines, i < e.count - 1 → I i lines →
      ∃ lines', ((lines.load (i + 1)).bind fun row => lines.store i row) = some lines' ∧
        I (i + 1) lines' := by
    rintro i lines hlt ⟨hle, hload⟩
    have hnext : lines.load (i + 1) = e.lines.load (i + 1) := by
      rw [hload, if_neg (by omega)]
    obtain ⟨row, hrow⟩ := e.lines.load_eq_some (i + 1) (show _ < 64 by omega)
    obtain ⟨lines', hl'⟩ := lines.store_eq_some i row (show _ < 64 by omega)
    refine ⟨lines', by rw [hnext, hrow, Option.bind_some, hl'], by omega, fun j => ?_⟩
    by_cases hj : j = i
    · subst hj
      rw [CArray.load_store_self hl', if_pos (by omega), hrow]
    · rw [CArray.load_store_ne hl' (Ne.symm hj), hload]
      by_cases hin : index ≤ j ∧ j < i
      · rw [if_pos hin, if_pos (by omega)]
      · rw [if_neg hin, if_neg (by omega)]
  obtain ⟨lines, hl, -, hload⟩ := loop8_spec I (fun i => decide (i < e.count - 1)) _ index
    (e.count - 1) (by omega) (by omega) (fun i => decide_eq_true_iff) hbody e.lines
    ⟨Nat.le_refl _, fun j => by rw [if_neg (by omega)]⟩
  refine ⟨⟨lines, e.count - 1⟩, by unfold deleteLine; rw [hl, Option.bind_some], rfl, ?_⟩
  show lines.first (e.count - 1) = _
  ext j : 1
  rw [List.getElem?_eraseIdx]
  by_cases hj : j < e.count - 1
  · rw [CArray.getElem?_first _ _ _ hj, hload]
    by_cases hin : index ≤ j
    · rw [if_pos ⟨hin, hj⟩, if_neg (by omega), CArray.getElem?_first _ _ _ (by omega)]
    · rw [if_neg (by omega), if_pos (by omega), CArray.getElem?_first _ _ _ (by omega)]
  · have hlen : ∀ (a : CArray Bytes CHAR_BUFFER_SIZE) (k : Nat), k ≤ 64 → (a.first k).length = k :=
      fun a k hk => a.length_first k hk
    rw [List.getElem?_eq_none (by rw [hlen _ _ (by omega)]; omega), if_neg (by omega),
      List.getElem?_eq_none (by rw [hlen _ _ hc]; omega)]

/-- The rows between the last line and `index` are made empty. -/
theorem EditLines.pad_spec (e : EditLines) (index : Nat) (hi : index ≤ 64)
    (hpad : e.count ≤ index) :
    ∃ lines, loop8 (fun i => decide (i < index)) (fun i lines => CArray.store lines i [])
      e.count e.lines = some lines ∧
        lines.first index = padRows (e.lines.first e.count) index := by
  have hlen : (e.lines.first e.count).length = e.count :=
    e.lines.length_first e.count (show _ ≤ 64 by omega)
  let I : Nat → CArray Bytes CHAR_BUFFER_SIZE → Prop := fun i lines =>
    e.count ≤ i ∧ lines.first i = e.lines.first e.count ++ List.replicate (i - e.count) []
  have hbody : ∀ i lines, i < index → I i lines →
      ∃ lines', CArray.store lines i [] = some lines' ∧ I (i + 1) lines' := by
    rintro i lines hlt ⟨hle, hfirst⟩
    obtain ⟨lines', hl'⟩ := lines.store_eq_some i [] (show _ < 64 by omega)
    refine ⟨lines', hl', by omega, ?_⟩
    rw [CArray.first_store_succ hl', hfirst, List.append_assoc, ← List.replicate_succ',
      show i + 1 - e.count = i - e.count + 1 by omega]
  obtain ⟨lines, hl, -, hfirst⟩ := loop8_spec I (fun i => decide (i < index)) _ e.count index
    (by omega) hpad (fun i => decide_eq_true_iff) hbody e.lines
    ⟨Nat.le_refl _, by rw [Nat.sub_self, List.replicate_zero, List.append_nil]⟩
  refine ⟨lines, hl, ?_⟩
  unfold padRows
  rw [hfirst, hlen]

theorem EditLines.replaceLine_spec (e : EditLines) (index : Nat) (content : Bytes)
    (hi : index < 64) (hc : e.count ≤ 64) :
    ∃ e', e.replaceLine index content = some e' ∧ e'.count ≤ 64 ∧
      e'.lines.first e'.count =
        putRow (e.lines.first e.count) index ((cstr content).take 63) := by
  have hlen : (e.lines.first e.count).length = e.count := e.lines.length_first e.count hc
  unfold replaceLine
  by_cases hpad : e.count ≤ index
  · obtain ⟨lines, hl, hfirst⟩ := e.pad_spec index (by omega) hpad
    obtain ⟨lines', hl'⟩ := lines.store_eq_some index ((cstr content).take 63) hi
    refine ⟨⟨lines', index + 1⟩, ?_, hi, ?_⟩
    · rw [if_pos hpad, hl, Option.bind_some, Nat.mod_eq_of_lt (by omega), Option.bind_some]
      show (lines.store index ((cstr content).take 63)).bind _ = _
      rw [hl', Option.bind_some]
    · show lines'.first (index + 1) = _
      rw [CArray.first_store_succ hl', hfirst, putRow_of_le _ (by omega)]
  · obtain ⟨lines', hl'⟩ := e.lines.store_eq_some index ((cstr content).take 63) hi
    refine ⟨⟨lines', e.count⟩, ?_, hc, ?_⟩
    · rw [if_neg hpad, Option.bind_some]
      show (e.lines.store index ((cstr content).take 63)).bind _ = _
      rw [hl', Option.bind_some]
    · show lines'.first e.count = _
      rw [CArray.first_store_of_lt hl', putRow_of_lt _ (by omega)]

/-- The index 64 passes the range check, and its row is outside the array. -/
theorem EditLines.replaceLine_none (e : EditLines) (content : Bytes) (hc : e.count ≤ 64) :
    e.replaceLine 64 content = none := by
  obtain ⟨lines, hl, -⟩ := e.pad_spec 64 (Nat.le_refl _) hc
  unfold replaceLine
  rw [if_pos hc, hl, Option.bind_some, Option.bind_some]
  rfl

/-- A loop that appends what `put` makes of each row. -/
theorem EditLines.loop_put_spec (e : EditLines) (hc : e.count ≤ 64) (put : Nat → Bytes → Bytes) :
    loop8 (fun i => decide (i < e.count))
        (fun i out => (e.lines.load i).map fun row => out ++ put i row) 0 [] =
      some ((e.lines.first e.count).zipIdx.flatMap fun r => put r.2 r.1) := by
  let I : Nat → Bytes → Prop := fun i out =>
    i ≤ e.count ∧ out = (e.lines.first i).zipIdx.flatMap fun r => put r.2 r.1
  have hbody : ∀ i out, i < e.count → I i out →
      ∃ out', ((e.lines.load i).map fun row => out ++ put i row) = some out' ∧ I (i + 1) out' := by
    rintro i out hlt ⟨-, rfl⟩
    obtain ⟨row, hrow⟩ := e.lines.load_eq_some i (show _ < 64 by omega)
    refine ⟨_, by rw [hrow, Option.map_some], hlt, ?_⟩
    rw [CArray.first_succ _ hrow, List.zipIdx_append, List.flatMap_append, Nat.zero_add,
      e.lines.length_first i (show i ≤ 64 by omega)]
    exact congrArg _ (List.flatMap_singleton _ _).symm
  obtain ⟨out, hout, -, heq⟩ := loop8_spec I (fun i => decide (i < e.count)) _ 0 e.count
    (by omega) (Nat.zero_le _) (fun i => decide_eq_true_iff) hbody []
    ⟨Nat.zero_le _, by rw [CArray.first_zero, List.zipIdx_nil, List.flatMap_nil]⟩
  rw [hout, heq]

theorem EditLines.print_spec (e : EditLines) (hc : e.count ≤ 64) :
    e.print = some (unlines (e.lines.first e.count)) := by
  refine (e.loop_put_spec hc fun _ row => row ++ [newline]).trans (congrArg some ?_)
  rw [unlines, ← List.zipIdx_map_fst 0 (e.lines.first e.count), List.flatMap_map]
  rw [List.zipIdx_map_fst]

/-- The lines of a file with one of them deleted or replaced, `index` counted from 0. -/
def editLines (rows : List Bytes) (index : Nat) (content : Bytes) : List Bytes :=
  if cstr content = [] then rows.eraseIdx index
  else putRow rows index ((cstr content).take 63)

/-- Inside the array either branch edits the list of rows. -/
theorem EditLines.edit_spec (e : EditLines) (index : Nat) (content : Bytes) (hi : index < 64)
    (hc : e.count ≤ 64) (hdel : cstr content = [] → index < e.count) :
    ∃ e', (if cstr content = [] then e.deleteLine index else e.replaceLine index content) =
        some e' ∧ e'.count ≤ 64 ∧
      e'.lines.first e'.count = editLines (e.lines.first e.count) index content := by
  unfold editLines
  by_cases hempty : cstr content = []
  · obtain ⟨e', he', hcount, hfirst⟩ := e.deleteLine_spec index (hdel hempty) hc
    rw [if_pos hempty, if_pos hempty]
    exact ⟨e', he', by omega, hfirst⟩
  · rw [if_neg hempty, if_neg hempty]
    exact e.replaceLine_spec index content hi hc

/-- The result when these rows are written, or the file cannot be opened for it. -/
def saved (s : Bytes) (writable : Bool) (rows : List Bytes) : Except String Bool × File :=
  if writable then (.ok true, some (unlines rows))
  else (.error "failed to open file for write", some s)

/-- Everything `L_FS_EDIT` can do with an existing file. -/
inductive Edited (s : Bytes) (i : Int) (content : Bytes) (writable : Bool) :
    Option (Except String Bool × File) → Prop where
  | outOfRange (h : (i % 256).toNat = 0 ∨ 64 < (i % 256).toNat) :
      Edited s i content writable (some (.error "index out of range", some s))
  | overflow (h : 0 < (i % 256).toNat ∧ (i % 256).toNat ≤ 64)
      (hrows : 64 < (readRows s).length) : Edited s i content writable none
  | nothing (h : 0 < (i % 256).toNat ∧ (i % 256).toNat ≤ 64) (hrows : (readRows s).length ≤ 64)
      (hc : cstr content = []) (hle : (readRows s).length ≤ (i % 256).toNat) :
      Edited s i content writable (some (.error "index out of range for delete", some s))
  | beyond (h : (i % 256).toNat = 64) (hrows : (readRows s).length ≤ 64)
      (hc : cstr content ≠ []) : Edited s i content writable none
  | done (h : 0 < (i % 256).toNat ∧ (i % 256).toNat < 64) (hrows : (readRows s).length ≤ 64)
      (hc : cstr content = [] → (i % 256).toNat < (readRows s).length) :
      Edited s i content writable
        (some (saved s writable (editLines (readRows s) (i % 256).toNat content)))

/-- From the reading loop on, on the pieces that are read: the call is refused,
leaves the array, or hands the edited rows to `save`. -/
theorem EditLines.edit_pieces {ρ : Type} (stack : CArray Bytes CHAR_BUFFER_SIZE) (ps : List Bytes)
    (index : Nat) (content : Bytes) (hi : index ≤ 64) (refused : ρ) (save : EditLines → Option ρ)
    (result : List Bytes → ρ)
    (hsave : ∀ e : EditLines, e.count ≤ 64 → save e = some (result (e.lines.first e.count))) :
    ((ps.foldlM EditLines.readRound ⟨stack, 0⟩).bind fun e =>
      if cstr content = [] ∧ e.count ≤ index then some refused
      else (if cstr content = [] then e.deleteLine index else e.replaceLine index content).bind
        save) =
      if 64 < ps.length then none
      else if cstr content = [] ∧ ps.length ≤ index then some refused
      else if index = 64 then none
      else some (result (editLines (ps.map rowOf) index content)) := by
  by_cases hmany : 64 < ps.length
  · rw [foldlM_readRound_none ps ⟨stack, 0⟩ (Nat.zero_le _) (by show 64 < 0 + _; omega),
      if_pos hmany]
    rfl
  obtain ⟨e, he, hcount, hfirst⟩ := foldlM_readRound ps ⟨stack, 0⟩ (by show 0 + _ ≤ 64; omega)
  have hcount : e.count = ps.length := hcount.trans (Nat.zero_add _)
  have hfirst : e.lines.first e.count = ps.map rowOf := hfirst
  rw [he, Option.bind_some, if_neg hmany, ← hcount]
  by_cases hdel : cstr content = [] ∧ e.count ≤ index
  · rw [if_pos hdel, if_pos hdel]
  rw [if_neg hdel, if_neg hdel]
  by_cases h64 : index = 64
  · have hc : cstr content ≠ [] := fun hc => hdel ⟨hc, by omega⟩
    rw [if_neg hc, if_pos h64, h64, e.replaceLine_none content (by omega)]
    rfl
  · obtain ⟨e', he', hcount', hfirst'⟩ := e.edit_spec index content (by omega) (by omega)
      fun hc => Nat.lt_of_not_le fun hle => hdel ⟨hc, hle⟩
    rw [if_neg h64, he', Option.bind_some, hsave e' hcount', hfirst', hfirst]

theorem EditLines.save_spec (e : EditLines) (hc : e.count ≤ 64) (s : Bytes) (writable : Bool) :
    e.save (some s) writable = some (saved s writable (e.lines.first e.count)) := by
  unfold save saved
  cases writable with
  | true => rw [if_pos rfl, if_pos rfl, e.print_spec hc, Option.map_some]
  | false => rfl

/-- **L_FS_EDIT refined.**  Where it has a defined effect it edits the list of
rows; it has none on a file of more than 64 rows, or past row 63. -/
theorem lFsEdit_spec (stack : CArray Bytes CHAR_BUFFER_SIZE) (s : Bytes) (i : Int)
    (content : Bytes) (writable : Bool) :
    Edited s i content writable (lFsEdit stack (some s) i content writable) := by
  unfold lFsEdit
  by_cases hrange : (i % 256).toNat = 0 ∨ 64 < (i % 256).toNat
  · rw [if_pos hrange]
    exact .outOfRange hrange
  have hin : 0 < (i % 256).toNat ∧ (i % 256).toNat ≤ 64 := by omega
  have hlen : (readRows s).length = (pieces 63 s).length := List.length_map _
  rw [if_neg hrange]
  show Edited s i content writable
    ((whileFgets 63 EditLines.readRound s ⟨stack, 0⟩).bind fun e => _)
  rw [whileFgets_eq 63 (by omega), EditLines.edit_pieces stack (pieces 63 s) _ content hin.2 _ _ _
    fun e hc => e.save_spec hc s writable, ← hlen]
  by_cases hmany : 64 < (readRows s).length
  · rw [if_pos hmany]
    exact .overflow hin hmany
  rw [if_neg hmany]
  by_cases hdel : cstr content = [] ∧ (readRows s).length ≤ (i % 256).toNat
  · rw [if_pos hdel]
    exact .nothing hin (by omega) hdel.1 hdel.2
  rw [if_neg hdel]
  by_cases h64 : (i % 256).toNat = 64
  · rw [if_pos h64]
    exact .beyond h64 (by omega) fun hc => hdel ⟨hc, by omega⟩
  · rw [if_neg h64]
    exact .done ⟨hin.1, by omega⟩ (by omega) fun hc =>
      Nat.lt_of_not_le fun hle => hdel ⟨hc, hle⟩

/-- What an edit does depends on neither the stack nor chance. -/
theorem Edited.unique {s : Bytes} {i : Int} {content : Bytes} {writable : Bool}
    {o o' : Option (Except String Bool × File)} (h : Edited s i content writable o)
    (h' : Edited s i content writable o') : o = o' := by
  cases h with
  | outOfRange hr => cases h' <;> first | rfl | omega
  | overflow hr hrows => cases h' <;> first | rfl | omega
  | nothing hr hrows hc hle =>
    cases h' with
    | nothing => rfl
    | beyond _ _ hc' => exact absurd hc hc'
    | done _ _ hdel => exact absurd (hdel hc) (Nat.not_lt_of_le hle)
    | _ => omega
  | beyond hr hrows hc =>
    cases h' with
    | beyond => rfl
    | nothing _ _ hc' => exact absurd hc' hc
    | _ => omega
  | done hr hrows hdel =>
    cases h' with
    | done => rfl
    | nothing _ _ hc hle => exact absurd (hdel hc) (Nat.not_lt_of_le hle)
    | _ => omega

/-- What `fs.edit(file, i, content)` may do with the file `s`, on some stack and
whether or not the file can be written. -/
def MayEdit (s : Bytes) (i : Int) (content : Bytes) (r : Except String Bool × File) : Prop :=
  ∃ stack writable, Allows (lFsEdit stack (some s) i content writable) r

theorem mayEdit_iff {s : Bytes} {i : Int} {content : Bytes}
    {o : Bool → Option (Except String Bool × File)}
    (h : ∀ writable, Edited s i content writable (o writable)) (r : Except String Bool × File) :
    MayEdit s i content r ↔ ∃ writable, Allows (o writable) r := by
  have ho : ∀ stack writable, lFsEdit stack (some s) i content writable = o writable :=
    fun stack writable => (lFsEdit_spec stack s i content writable).unique (h writable)
  unfold MayEdit
  simp only [ho]
  exact ⟨fun ⟨_, writable, h⟩ => ⟨writable, h⟩, fun ⟨writable, h⟩ => ⟨CArray.fill _ [], writable, h⟩⟩

/-- When the rows are written, or the file cannot be opened for it. -/
theorem mayEdit_done_iff {s : Bytes} {i : Int} {content : Bytes} {n : Nat}
    (hn : (i % 256).toNat = n) (h : 0 < n ∧ n < 64) (hrows : (readRows s).length ≤ 64)
    (hc : cstr content = [] → n < (readRows s).length) (r : Except String Bool × File) :
    MayEdit s i content r ↔
      r = (.ok true, some (unlines (editLines (readRows s) n content))) ∨
        r = (.error "failed to open file for write", some s) := by
  subst hn
  rw [mayEdit_iff fun _ => Edited.done h hrows hc, Bool.exists_bool, allows_some_iff,
    allows_some_iff]
  exact Or.comm

end CLIos
