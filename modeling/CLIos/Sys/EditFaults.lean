import CLIos.Lib.FaultyFile
import CLIos.Sys.EditFrame

/-!
# Editing on failing storage

`L_FS_EDIT` once more, with the calls of the C library as they may fail.  It
looks at what `fopen` returns, both times, and at nothing else: `fgets` that
fails ends the file, and what `fprintf` and `fclose` did not store is missing.
`fopen` for writing that fails leaves the file, and one that succeeds empties it.
-/

namespace CLIos

open CMem TextFile

/-- How the calls on the file end. -/
structure EditIo where
  /-- `fopen` for reading does not return NULL -/
  opens : Bool
  /-- the call of `fgets` that fails, counted from 0 -/
  readFails : Option Nat
  /-- `fopen` for writing does not return NULL -/
  writable : Bool
  /-- the bytes each `fprintf` accepts, if not all -/
  accepted : Nat → Option Nat
  /-- the bytes of the file that `fclose` stores, if not all -/
  kept : Option Nat

def EditLines.printIo (e : EditLines) (accepted : Nat → Option Nat) : Option Bytes :=
  loop8 (fun i => decide (i < e.count))
    (fun i out => (e.lines.load i).map fun row => out ++ cut (accepted i) (row ++ [newline])) 0 []

def EditLines.saveIo (e : EditLines) (file : File) (io : EditIo) :
    Option (Except String Bool × File) :=
  if io.writable then
    (e.printIo io.accepted).map fun out => (.ok true, some (cut io.kept out))
  else some (.error "failed to open file for write", file)

def lFsEditIo (stack : CArray Bytes CHAR_BUFFER_SIZE) (file : File) (i : Int) (content : Bytes)
    (io : EditIo) : Option (Except String Bool × File) :=
  let index := (i % 256).toNat
  if index = 0 ∨ CHAR_BUFFER_SIZE < index then some (.error "index out of range", file)
  else
    match file, io.opens with
    | some s, true =>
      (whileFgetsFail (CHAR_BUFFER_SIZE - 1) EditLines.readRound io.readFails s ⟨stack, 0⟩).bind
      fun e =>
      if cstr content = [] ∧ e.count ≤ index then
        some (.error "index out of range for delete", file)
      else
        (if cstr content = [] then e.deleteLine index else e.replaceLine index content).bind fun e =>
        e.saveIo file io
    | _, _ => some (.error "failed to open file for read", file)

/-- Without a failure this is `lFsEdit`. -/
theorem lFsEditIo_faultless (stack : CArray Bytes CHAR_BUFFER_SIZE) (file : File) (i : Int)
    (content : Bytes) (writable : Bool) :
    lFsEditIo stack file i content ⟨true, none, writable, fun _ => none, none⟩ =
      lFsEdit stack file i content writable := by
  cases file <;> rfl

/-- True and the whole edited file, or nil and the file as it was. -/
def AllOrNothing (s : Bytes) (i : Int) (content : Bytes) (io : EditIo) : Prop :=
  ∀ stack, ∃ r, lFsEditIo stack (some s) i content io = some r ∧
    (r = (.ok true, some (unlines (editLines (readRows s) (editIndex i) content))) ∨
      ∃ msg, r = (.error msg, some s))

/-- All rows are read, or the rest does not matter: it ends with the row that is
replaced, and before that it is empty. -/
def ReadsEnough (rows : List Bytes) (n : Nat) (content : Bytes) (readFails : Option Nat) : Prop :=
  (cut readFails rows).length = rows.length ∨
    cstr content ≠ [] ∧ (cut readFails rows).length ≤ n ∧ rows.length ≤ n + 1 ∧
      ∀ (j : Nat) (row : Bytes), (cut readFails rows).length ≤ j → j < n → rows[j]? = some row →
        row = []

/-- Nothing is lost between the old file and the new one. -/
structure Uncut (rows : List Bytes) (n : Nat) (content : Bytes) (io : EditIo) : Prop where
  read : ReadsEnough rows n content io.readFails
  accepted : AllAccepted io.accepted (editLines rows n content)
  kept : ∀ k, io.kept = some k → (unlines (editLines rows n content)).length ≤ k

/-- The call fails before it opens the file for writing, or it loses nothing. -/
def Intact (s : Bytes) (i : Int) (content : Bytes) (io : EditIo) : Prop :=
  (editIndex i = 0 ∨ 64 < editIndex i) ∨ io.opens = false ∨
    (cut io.readFails (readRows s)).length ≤ 64 ∧
      (cstr content = [] ∧ (cut io.readFails (readRows s)).length ≤ editIndex i ∨
        editIndex i < 64 ∧
          (io.writable = false ∨ Uncut (readRows s) (editIndex i) content io))

/-! ## Rows that were not read -/

theorem thinner_editLines (rows : List Bytes) (n : Nat) (content : Bytes) (k : Option Nat) :
    (cstr content = [] → n < (cut k rows).length) →
    Thinner (editLines (cut k rows) n content) (editLines rows n content) := by
  intro hdel j row hj
  have hread : ∀ m : Nat, (cut k rows)[m]? = some row → rows[m]? = some row := by
    intro m hm
    rw [getElem?_cut] at hm
    split at hm
    · exact hm
    · cases hm
  unfold editLines at hj ⊢
  by_cases hc : cstr content = []
  · rw [if_pos hc, List.getElem?_eraseIdx] at hj ⊢
    refine ⟨row, ?_, Or.inl rfl⟩
    by_cases hlt : j < n
    · rw [if_pos hlt] at hj ⊢
      exact hread j hj
    · rw [if_neg hlt] at hj ⊢
      exact hread (j + 1) hj
  · rw [if_neg hc, getElem?_putRow] at hj ⊢
    by_cases hlt : j < n
    · rw [if_pos hlt, getElem?_cut] at hj
      rw [if_pos hlt]
      obtain rfl := Option.some.inj hj
      refine ⟨_, rfl, ?_⟩
      split
      · exact Or.inl rfl
      · exact Or.inr rfl
    rw [if_neg hlt] at hj ⊢
    by_cases heq : j = n
    · rw [if_pos heq] at hj ⊢
      exact ⟨row, hj, Or.inl rfl⟩
    · rw [if_neg heq] at hj ⊢
      exact ⟨row, hread j hj, Or.inl rfl⟩

/-- The edit of the rows read is the edit of all rows. -/
theorem editLines_cut_iff (rows : List Bytes) (n : Nat) (content : Bytes) (k : Option Nat)
    (hdel : cstr content = [] → n < (cut k rows).length) :
    editLines (cut k rows) n content = editLines rows n content ↔ ReadsEnough rows n content k := by
  have hle := (prefix_cut k rows).length_le
  unfold ReadsEnough
  by_cases hall : (cut k rows).length = rows.length
  · rw [(prefix_cut k rows).eq_of_length hall]
    exact iff_of_true rfl (Or.inl rfl)
  rw [or_iff_right hall]
  unfold editLines
  by_cases hc : cstr content = []
  · have hn := hdel hc
    rw [if_pos hc, if_pos hc]
    refine iff_of_false (fun h => hall ?_) fun h => h.1 hc
    have hlen := congrArg List.length h
    rw [List.length_eraseIdx_of_lt hn, List.length_eraseIdx_of_lt (by omega)] at hlen
    omega
  · rw [if_neg hc, if_neg hc]
    constructor
    · intro h
      have hlen := congrArg List.length h
      rw [length_putRow, length_putRow] at hlen
      refine ⟨hc, by omega, by omega, fun j row hj hn hrow => ?_⟩
      have hat := congrArg (fun l => l[j]?) h
      simp only [getElem?_putRow, if_pos hn, getElem?_cut, if_neg (Nat.not_lt_of_le hj),
        hrow] at hat
      exact (Option.some.inj hat).symm
    · rintro ⟨-, hn, hlast, hempty⟩
      ext j : 1
      rw [getElem?_putRow, getElem?_putRow]
      by_cases hj : j < n
      · rw [if_pos hj, if_pos hj, getElem?_cut]
        by_cases hread : j < (cut k rows).length
        · rw [if_pos hread]
        · rw [if_neg hread]
          cases hrow : rows[j]? with
          | none => rfl
          | some row => rw [hempty j row (by omega) hj hrow]; rfl
      · rw [if_neg hj, if_neg hj]
        by_cases heq : j = n
        · rw [if_pos heq, if_pos heq]
        · rw [if_neg heq, if_neg heq, List.getElem?_eq_none (by omega),
            List.getElem?_eq_none (by omega)]

/-! ## The call -/

/-- The result when these rows are written, or the file cannot be opened for it. -/
def savedIo (s : Bytes) (io : EditIo) (rows : List Bytes) : Except String Bool × File :=
  if io.writable then (.ok true, some (cut io.kept (shortWrites io.accepted rows)))
  else (.error "failed to open file for write", some s)

theorem EditLines.saveIo_spec (e : EditLines) (hc : e.count ≤ 64) (s : Bytes) (io : EditIo) :
    e.saveIo (some s) io = some (savedIo s io (e.lines.first e.count)) := by
  have hprint : e.printIo io.accepted = some (shortWrites io.accepted (e.lines.first e.count)) :=
    e.loop_put_spec hc fun i row => cut (io.accepted i) (row ++ [newline])
  unfold saveIo savedIo
  rw [hprint]
  cases io.writable <;> rfl

/-- Past the refusals, on the rows that are read. -/
theorem lFsEditIo_eq (stack : CArray Bytes CHAR_BUFFER_SIZE) (s : Bytes) (i : Int)
    (content : Bytes) (io : EditIo) (hin : ¬ (editIndex i = 0 ∨ 64 < editIndex i))
    (hopen : io.opens = true) {rows : List Bytes} (hrows : cut io.readFails (readRows s) = rows) :
    lFsEditIo stack (some s) i content io =
      if 64 < rows.length then none
      else if cstr content = [] ∧ rows.length ≤ editIndex i then
        some (.error "index out of range for delete", some s)
      else if editIndex i = 64 then none
      else some (savedIo s io (editLines rows (editIndex i) content)) := by
  have hmap : (cut io.readFails (pieces 63 s)).map rowOf = rows := (map_cut ..).trans hrows
  have hlen : rows.length = (cut io.readFails (pieces 63 s)).length := by
    rw [← hmap, List.length_map]
  unfold lFsEditIo
  rw [hopen]
  show (if editIndex i = 0 ∨ 64 < editIndex i then _ else
    (whileFgetsFail 63 EditLines.readRound io.readFails s ⟨stack, 0⟩).bind fun e => _) = _
  rw [if_neg hin, whileFgetsFail_eq 63 (by omega), hlen]
  rw [← hmap]
  exact EditLines.edit_pieces stack _ (editIndex i) content (by omega) _ _ (savedIo s io)
    fun e hc => e.saveIo_spec hc s io

theorem lFsEditIo_refused (stack : CArray Bytes CHAR_BUFFER_SIZE) (s : Bytes) (i : Int)
    (content : Bytes) (io : EditIo)
    (h : (editIndex i = 0 ∨ 64 < editIndex i) ∨ io.opens = false) :
    ∃ msg, lFsEditIo stack (some s) i content io = some (.error msg, some s) := by
  unfold lFsEditIo
  by_cases hrange : editIndex i = 0 ∨ 64 < editIndex i
  · exact ⟨_, if_pos hrange⟩
  · refine ⟨"failed to open file for read", (if_neg hrange).trans ?_⟩
    rw [h.resolve_left hrange]

theorem allOrNothing_error {s : Bytes} {i : Int} {content : Bytes} {io : EditIo}
    (h : ∀ stack, ∃ msg, lFsEditIo stack (some s) i content io = some (.error msg, some s)) :
    AllOrNothing s i content io := by
  intro stack
  obtain ⟨msg, hmsg⟩ := h stack
  exact ⟨_, hmsg, Or.inr ⟨msg, rfl⟩⟩

theorem not_allOrNothing_none {s : Bytes} {i : Int} {content : Bytes} {io : EditIo}
    (h : ∀ stack, lFsEditIo stack (some s) i content io = none) :
    ¬ AllOrNothing s i content io := by
  intro hall
  obtain ⟨r, hr, -⟩ := hall (CArray.fill _ [])
  rw [h] at hr
  cases hr

/-- What is left when the file is written. -/
theorem allOrNothing_written_iff {s : Bytes} {i : Int} {content : Bytes} {io : EditIo}
    (hread : cstr content = [] → editIndex i < (cut io.readFails (readRows s)).length)
    (h : ∀ stack, lFsEditIo stack (some s) i content io =
      some (.ok true, some (cut io.kept (shortWrites io.accepted
        (editLines (cut io.readFails (readRows s)) (editIndex i) content))))) :
    AllOrNothing s i content io ↔ Uncut (readRows s) (editIndex i) content io := by
  have hstored := stored_eq_iff (thinner_editLines (readRows s) (editIndex i) content io.readFails
    hread) io.accepted io.kept
  rw [editLines_cut_iff _ _ _ _ hread] at hstored
  have hall : AllOrNothing s i content io ↔
      cut io.kept (shortWrites io.accepted
        (editLines (cut io.readFails (readRows s)) (editIndex i) content)) =
        unlines (editLines (readRows s) (editIndex i) content) := by
    constructor
    · intro hall
      obtain ⟨r, hr, rfl | ⟨msg, rfl⟩⟩ := hall (CArray.fill _ [])
      · rw [h] at hr
        simpa using hr
      · rw [h] at hr
        cases hr
    · intro hsame stack
      exact ⟨_, h stack, Or.inl (by rw [hsame])⟩
  rw [hall, hstored]
  exact ⟨fun h => ⟨h.1, h.2.1, h.2.2⟩, fun h => ⟨h.read, h.accepted, h.kept⟩⟩

/-- **All or nothing.**  `L_FS_EDIT` returns true with the whole edited file, or
nil with the file as it was, exactly when it fails before it opens the file for
writing or loses nothing after that. -/
theorem fs_edit_all_or_nothing_iff (s : Bytes) (i : Int) (content : Bytes) (io : EditIo) :
    AllOrNothing s i content io ↔ Intact s i content io := by
  unfold Intact
  by_cases hin : editIndex i = 0 ∨ 64 < editIndex i
  · exact iff_of_true (allOrNothing_error fun stack =>
      lFsEditIo_refused stack s i content io (Or.inl hin)) (Or.inl hin)
  rw [or_iff_right hin]
  by_cases hopen : io.opens = false
  · exact iff_of_true (allOrNothing_error fun stack =>
      lFsEditIo_refused stack s i content io (Or.inr hopen)) (Or.inl hopen)
  rw [or_iff_right hopen]
  have heq := fun stack => lFsEditIo_eq stack s i content io hin (by simpa using hopen) rfl
  by_cases hmany : 64 < (cut io.readFails (readRows s)).length
  · exact iff_of_false (not_allOrNothing_none fun stack => by rw [heq, if_pos hmany])
      fun h => absurd h.1 (by omega)
  rw [and_iff_right (by omega)]
  by_cases hdel : cstr content = [] ∧ (cut io.readFails (readRows s)).length ≤ editIndex i
  · exact iff_of_true (allOrNothing_error fun stack => by
      rw [heq, if_neg hmany, if_pos hdel]; exact ⟨_, rfl⟩) (Or.inl hdel)
  rw [or_iff_right hdel]
  by_cases h64 : editIndex i = 64
  · exact iff_of_false (not_allOrNothing_none fun stack => by
      rw [heq, if_neg hmany, if_neg hdel, if_pos h64]) fun h => absurd h.1 (by omega)
  rw [and_iff_right (by omega)]
  by_cases hw : io.writable = false
  · exact iff_of_true (allOrNothing_error fun stack => by
      rw [heq, if_neg hmany, if_neg hdel, if_neg h64, savedIo, hw]; exact ⟨_, rfl⟩) (Or.inl hw)
  rw [or_iff_right hw]
  refine allOrNothing_written_iff (fun hc => Nat.lt_of_not_le fun hle => hdel ⟨hc, hle⟩)
    fun stack => ?_
  rw [heq, if_neg hmany, if_neg hdel, if_neg h64, savedIo, if_pos (by simpa using hw)]

/-- The storage is full when the first row is to be written. -/
theorem fs_edit_on_full_storage : ¬ ∀ s i content io, AllOrNothing s i content io := by
  intro h
  have hrun : lFsEditIo (CArray.fill _ []) (some [97, 10]) 1 [98]
      ⟨true, none, true, fun _ => some 0, none⟩ = some (.ok true, some []) := rfl
  obtain ⟨r, hr, hr' | ⟨msg, hr'⟩⟩ := h [97, 10] 1 [98] ⟨true, none, true, fun _ => some 0, none⟩
    (CArray.fill _ [])
  · rw [hrun, hr'] at hr
    revert hr
    decide +kernel
  · rw [hrun, hr'] at hr
    cases hr

end CLIos
