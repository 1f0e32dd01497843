import CLIos.Sys.Littlefs

/-!
# What an edit leaves alone

`fs.edit` is for changing one line of a file: the one at the index, counted from
0.  The others should be kept, byte for byte.  The file goes through rows of 63
bytes, 64 of them: a longer line, or one of 63 bytes with its newline, comes back
as two, and a file of more rows has no defined result.
-/

namespace CLIos

open CMem TextFile

/-- The index as the code has it, a `uint8_t`. -/
def editIndex (i : Int) : Nat := (i % 256).toNat

/-- The lines of the file once only the line `n` is deleted or replaced by what
is written in its place; empty lines fill the file up to `n`. -/
def framedLines (ls : List Bytes) (n : Nat) (content : Bytes) : List Bytes :=
  if cstr content = [] then ls.eraseIdx n
  else (padRows ls n).take n ++ lines ((cstr content).take 63 ++ [newline]) ++ ls.drop (n + 1)

/-- Whenever the call may return true, only the addressed line has changed. -/
def EditFrames (s : Bytes) (i : Int) (content : Bytes) : Prop :=
  ∀ stack writable s',
    Allows (lFsEdit stack (some s) i content writable) (.ok true, some s') →
      lines s' = framedLines (lines s) (editIndex i) content

/-- The rows are the lines, but for the one at `n`. -/
def SameBut (n : Nat) (content : Bytes) (rows ls : List Bytes) : Prop :=
  if cstr content = [] then rows.length ≤ n ∨ rows.eraseIdx n = ls.eraseIdx n
  else n < 64 ∧ (padRows rows n).take n = (padRows ls n).take n ∧
    rows.drop (n + 1) = ls.drop (n + 1)

instance (n : Nat) (content : Bytes) (rows ls : List Bytes) :
    Decidable (SameBut n content rows ls) := by
  unfold SameBut
  infer_instance

theorem lines_unlines_editLines (rows : List Bytes) (h : ∀ r ∈ rows, newline ∉ r) (n : Nat)
    (content : Bytes) : lines (unlines (editLines rows n content)) = framedLines rows n content := by
  unfold editLines framedLines
  by_cases hc : cstr content = []
  · rw [if_pos hc, if_pos hc]
    exact lines_unlines _ fun r hr => h r (List.mem_of_mem_eraseIdx hr)
  · rw [if_neg hc, if_neg hc]
    apply lines_unlines_middle
    · intro r hr
      rcases List.mem_append.mp (List.mem_of_mem_take hr) with hr | hr
      · exact h r hr
      · rw [(List.mem_replicate.mp hr).2]
        exact List.not_mem_nil
    · exact fun r hr => h r (List.mem_of_mem_drop hr)

/-- Framed lines are the same exactly for lists that agree apart from `n`. -/
theorem framedLines_eq_iff (rows ls : List Bytes) (n : Nat) (content : Bytes)
    (hc : cstr content ≠ []) : framedLines rows n content = framedLines ls n content ↔
      (padRows rows n).take n = (padRows ls n).take n ∧ rows.drop (n + 1) = ls.drop (n + 1) := by
  unfold framedLines
  rw [if_neg hc, if_neg hc]
  constructor
  · intro h
    rw [List.append_assoc, List.append_assoc] at h
    obtain ⟨hfront, hrest⟩ := List.append_inj h
      (by rw [length_take_padRows, length_take_padRows])
    exact ⟨hfront, List.append_cancel_left hrest⟩
  · rintro ⟨hfront, hrest⟩
    rw [hfront, hrest]

/-- No list of lines is that of every file. -/
theorem not_all_lines (ls : List Bytes) : ¬ ∀ s', lines s' = ls := by
  intro h
  have h0 : lines [] = lines [newline] := (h []).trans (h [newline]).symm
  exact absurd h0 (by decide)

/-- A call that cannot return true frames whatever it edits. -/
theorem editFrames_of_error {s : Bytes} {i : Int} {content : Bytes} {msg : String}
    (h : ∀ writable, Edited s i content writable (some (.error msg, some s))) :
    EditFrames s i content := by
  intro stack writable s' hallow
  obtain ⟨_, hallow⟩ := (mayEdit_iff h _).mp ⟨stack, writable, hallow⟩
  cases hallow _ rfl

theorem not_editFrames_of_none {s : Bytes} {i : Int} {content : Bytes}
    (h : ∀ writable, Edited s i content writable none) : ¬ EditFrames s i content := by
  intro hframes
  apply not_all_lines (framedLines (lines s) (editIndex i) content)
  intro s'
  obtain ⟨stack, writable, hallow⟩ := (mayEdit_iff h (.ok true, some s')).mpr ⟨true, allows_none _⟩
  exact hframes stack writable s' hallow

theorem editFrames_done_iff (s : Bytes) (i : Int) (content : Bytes)
    (h : 0 < editIndex i ∧ editIndex i < 64) (hlen : (readRows s).length ≤ 64)
    (hdel : cstr content = [] → editIndex i < (readRows s).length) :
    EditFrames s i content ↔ framedLines (readRows s) (editIndex i) content =
      framedLines (lines s) (editIndex i) content := by
  have hwritten := lines_unlines_editLines (readRows s)
    (fun r hr => (mem_readRows s r hr).1) (editIndex i) content
  have hmay : ∀ r, MayEdit s i content r ↔
      r = (.ok true, some (unlines (editLines (readRows s) (editIndex i) content))) ∨
        r = (.error "failed to open file for write", some s) :=
    mayEdit_done_iff rfl h hlen hdel
  constructor
  · intro hframes
    obtain ⟨stack, writable, hallow⟩ := (hmay _).mpr (Or.inl rfl)
    rw [← hwritten]
    exact hframes stack writable _ hallow
  · intro heq stack writable s' hallow
    rcases (hmay _).mp ⟨stack, writable, hallow⟩ with hs' | herror
    · cases hs'
      rw [hwritten, heq]
    · cases herror

/-- **Frame.**  An edit changes only the addressed line exactly when its index is
refused, or the file has at most 64 rows and its rows are its lines, but for the
one addressed. -/
theorem fs_edit_frames_iff (s : Bytes) (i : Int) (content : Bytes) (hs : 0 ∉ s) :
    EditFrames s i content ↔
      editIndex i = 0 ∨ 64 < editIndex i ∨
        ((lines (wrap 63 s)).length ≤ 64 ∧
          SameBut (editIndex i) content (lines (wrap 63 s)) (lines s)) := by
  rw [← readRows_eq_lines s hs, ← or_assoc]
  by_cases hout : editIndex i = 0 ∨ 64 < editIndex i
  · exact iff_of_true (editFrames_of_error fun _ => .outOfRange hout) (Or.inl hout)
  have hin : 0 < editIndex i ∧ editIndex i ≤ 64 := by omega
  rw [or_iff_right hout]
  by_cases hlen : (readRows s).length ≤ 64
  · rw [and_iff_right hlen]
    unfold SameBut
    by_cases hc : cstr content = []
    · rw [if_pos hc]
      by_cases hle : (readRows s).length ≤ editIndex i
      · exact iff_of_true (editFrames_of_error fun _ => .nothing hin hlen hc hle) (Or.inl hle)
      · rw [editFrames_done_iff s i content ⟨hin.1, by omega⟩ hlen fun _ => by omega,
          or_iff_right hle]
        unfold framedLines
        rw [if_pos hc, if_pos hc]
    · rw [if_neg hc]
      by_cases hlt : editIndex i < 64
      · rw [editFrames_done_iff s i content ⟨hin.1, hlt⟩ hlen fun h => absurd h hc,
          framedLines_eq_iff _ _ _ _ hc, and_iff_right hlt]
      · have h64 : editIndex i = 64 := by omega
        exact iff_of_false (not_editFrames_of_none fun _ => .beyond h64 hlen hc) fun h => hlt h.1
  · exact iff_of_false (not_editFrames_of_none fun _ => .overflow hin (by omega)) fun h => hlen h.1

/-- Two short lines: the second is replaced and the first kept. -/
theorem fs_edit_frames_two : EditFrames [97, 10, 98, 10] 1 [99] :=
  (fs_edit_frames_iff [97, 10, 98, 10] 1 [99] (by decide)).mpr
    (Or.inr (Or.inr ⟨by decide, by decide +kernel⟩))

/-- A line of 64 bytes: when a second line is added, it has lost its last byte. -/
theorem fs_edit_cuts_line : ¬ ∀ s i content, 0 ∉ s → EditFrames s i content := by
  intro h
  have hrun : lFsEdit (CArray.fill _ []) (some (List.replicate 64 97 ++ [newline])) 1 [98] true =
      some (.ok true, some (List.replicate 63 97 ++ [newline, 98, newline])) := rfl
  have hlines := h (List.replicate 64 97 ++ [newline]) 1 [98] (by decide) (CArray.fill _ []) true _
    (by rw [hrun]; exact (allows_some_iff _ _).mpr rfl)
  exact absurd hlines (by decide +kernel)

end CLIos
