import CLIos.Sys.EditFrame

/-!
# The line table

`L_FS_EDIT` once more, with `count` and `i` checked like the rows of `lines`:
where a row is outside the array or a counter would wrap, the call is `none`.
The rows are the sharper of the two, since every counter that is raised has just
been used as one.
-/

namespace CLIos

open CMem TextFile

/-! ## Checked counters -/

def EditLines.readRoundStrict (e : EditLines) (buf : Bytes) : Option EditLines :=
  (e.lines.store e.count (rowOf buf)).bind fun lines =>
  (succ8 e.count).bind fun count => some { lines := lines, count := count }

def EditLines.deleteLineStrict (e : EditLines) (index : Nat) : Option EditLines :=
  (strictLoop8 (fun i => decide (i < e.count - 1))
    (fun i lines => (lines.load (i + 1)).bind fun row => lines.store i row) index e.lines).bind
  fun lines =>
  (pred8 e.count).bind fun count => some { lines := lines, count := count }

def EditLines.replaceLineStrict (e : EditLines) (index : Nat) (content : Bytes) :
    Option EditLines :=
  (if e.count ≤ index then
      (strictLoop8 (fun i => decide (i < index)) (fun i lines => lines.store i []) e.count
        e.lines).bind
      fun lines => (succ8 index).bind fun count => some { lines := lines, count := count }
    else some e).bind fun e =>
  (e.lines.store index ((cstr content).take (CHAR_BUFFER_SIZE - 1))).bind fun lines =>
  some { e with lines := lines }

def EditLines.printStrict (e : EditLines) : Option Bytes :=
  strictLoop8 (fun i => decide (i < e.count))
    (fun i out => (e.lines.load i).map fun row => out ++ (row ++ [newline])) 0 []

def EditLines.saveStrict (e : EditLines) (file : File) (writable : Bool) :
    Option (Except String Bool × File) :=
  if writable then e.printStrict.map fun out => (.ok true, some out)
  else some (.error "failed to open file for write", file)

/-- `lFsEdit` with every row and every counter checked. -/
def lFsEditStrict (stack : CArray Bytes CHAR_BUFFER_SIZE) (file : File) (i : Int) (content : Bytes)
    (writable : Bool) : Option (Except String Bool × File) :=
  let index := (i % 256).toNat
  if index = 0 ∨ CHAR_BUFFER_SIZE < index then some (.error "index out of range", file)
  else
    match file with
    | none => some (.error "failed to open file for read", file)
    | some s =>
      (whileFgets (CHAR_BUFFER_SIZE - 1) EditLines.readRoundStrict s ⟨stack, 0⟩).bind fun e =>
      if cstr content = [] ∧ e.count ≤ index then
        some (.error "index out of range for delete", file)
      else
        (if cstr content = [] then e.deleteLineStrict index
          else e.replaceLineStrict index content).bind fun e =>
        e.saveStrict file writable

/-- No call on the file `s` leaves the table, whatever the stack holds and
whether or not the file can be written. -/
def StaysInside (s : Bytes) (i : Int) (content : Bytes) : Prop :=
  ∀ stack writable, (lFsEditStrict stack (some s) i content writable).isSome = true

/-! ## No counter wraps before a row is missed -/

theorem EditLines.readRoundStrict_eq : EditLines.readRoundStrict = EditLines.readRound := by
  funext e buf
  unfold readRoundStrict readRound
  cases h : e.lines.store e.count (rowOf buf) with
  | none => rfl
  | some lines =>
    have hlt : e.count < 64 := CArray.store_lt h
    simp only [Option.bind_some, succ8_eq (show e.count < 255 by omega)]

theorem EditLines.deleteLineStrict_eq (e : EditLines) (index : Nat) (h : index < e.count) :
    e.deleteLineStrict index = e.deleteLine index := by
  unfold deleteLineStrict deleteLine
  rw [strictLoop8_eq, pred8_eq (show 0 < e.count by omega)]
  · rfl
  · intro i lines lines' hbody
    obtain ⟨row, -, hstore⟩ := Option.bind_eq_some_iff.mp hbody
    have hlt : i < 64 := CArray.store_lt hstore
    omega

theorem EditLines.replaceLineStrict_eq (e : EditLines) (index : Nat) (content : Bytes)
    (h : index ≤ 64) : e.replaceLineStrict index content = e.replaceLine index content := by
  unfold replaceLineStrict replaceLine
  rw [strictLoop8_eq, succ8_eq (show index < 255 by omega)]
  · rfl
  · intro i lines lines' hstore
    have hlt : i < 64 := CArray.store_lt hstore
    omega

theorem EditLines.printStrict_eq (e : EditLines) : e.printStrict = e.print := by
  apply strictLoop8_eq
  intro i out out' hbody
  obtain ⟨row, hload, -⟩ := Option.map_eq_some_iff.mp hbody
  have hlt : i < 64 := CArray.load_lt hload
  omega

/-- The checks on the counters change nothing. -/
theorem lFsEditStrict_eq (stack : CArray Bytes CHAR_BUFFER_SIZE) (file : File) (i : Int)
    (content : Bytes) (writable : Bool) :
    lFsEditStrict stack file i content writable = lFsEdit stack file i content writable := by
  unfold lFsEditStrict lFsEdit
  by_cases hrange : (i % 256).toNat = 0 ∨ CHAR_BUFFER_SIZE < (i % 256).toNat
  · simp only [if_pos hrange]
  simp only [if_neg hrange]
  cases file with
  | none => rfl
  | some s =>
    rw [EditLines.readRoundStrict_eq]
    refine Option.bind_congr fun e _ => ?_
    by_cases hdel : cstr content = [] ∧ e.count ≤ (i % 256).toNat
    · simp only [if_pos hdel]
    simp only [if_neg hdel, EditLines.saveStrict, EditLines.save, EditLines.printStrict_eq]
    by_cases hc : cstr content = []
    · simp only [if_pos hc]
      rw [EditLines.deleteLineStrict_eq e _ (Nat.lt_of_not_le fun hle => hdel ⟨hc, hle⟩)]
    · simp only [if_neg hc]
      rw [EditLines.replaceLineStrict_eq e _ content (Nat.le_of_not_lt fun h => hrange (Or.inr h))]

/-! ## The bounds -/

theorem length_readRows (s : Bytes) : (readRows s).length = (lines (wrap 63 s)).length := by
  rw [← map_trim_pieces 63 (by omega) s, List.length_map]
  exact List.length_map _

/-- **The line table.**  `L_FS_EDIT` stays inside it exactly where it refuses the
index or the file has 64 lines at most, counting a line anew after every 63 bytes,
and no content is put in the row 64. -/
theorem fs_edit_inside_iff (s : Bytes) (i : Int) (content : Bytes) :
    StaysInside s i content ↔ (editIndex i = 0 ∨ 64 < editIndex i) ∨
      (lines (wrap 63 s)).length ≤ 64 ∧ (cstr content = [] ∨ editIndex i < 64) := by
  rw [← length_readRows]
  unfold StaysInside editIndex
  simp only [lFsEditStrict_eq]
  constructor
  · intro h
    have hsome := h (CArray.fill _ []) true
    have hspec := lFsEdit_spec (CArray.fill _ []) s i content true
    revert hsome hspec
    generalize lFsEdit (CArray.fill _ []) (some s) i content true = r
    intro hsome hspec
    cases hspec with
    | outOfRange hr => exact Or.inl hr
    | overflow hr hrows => cases hsome
    | nothing hr hrows hc hle => exact Or.inr ⟨hrows, Or.inl hc⟩
    | beyond hr hrows hc => cases hsome
    | done hr hrows hc => exact Or.inr ⟨hrows, Or.inr hr.2⟩
  · intro h stack writable
    have hspec := lFsEdit_spec stack s i content writable
    revert hspec
    generalize lFsEdit stack (some s) i content writable = r
    intro hspec
    cases hspec with
    | overflow hr hrows => omega
    | beyond hr hrows hc =>
      rcases h with h | ⟨-, hc' | hlt⟩
      · omega
      · exact absurd hc' hc
      · omega
    | _ => rfl

/-- An empty file, edited in the row 64. -/
theorem fs_edit_row_64 : ¬ ∀ s i content, StaysInside s i content := by
  intro h
  have hsome := h [] 64 [97] (CArray.fill _ []) true
  have hnone : lFsEdit (CArray.fill _ []) (some []) 64 [97] true = none :=
    (lFsEdit_spec _ _ _ _ _).unique (.beyond rfl (by decide) (by decide))
  rw [lFsEditStrict_eq, hnone] at hsome
  cases hsome

end CLIos
