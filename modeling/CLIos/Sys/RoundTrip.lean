import CLIos.Sys.Littlefs

/-!
# What is written and what is read

A file made by calls of `fs.write` that return true, read by `fs.read`.  The
strings written have lines; the table should hold the k-th of them under k.  It
does when the file has no NUL, at most 255 lines, and lines that fit the buffer
of `L_FS_READ`: a line of 63 bytes with its newline is read as two.
-/

namespace CLIos

open CMem TextFile

/-- A call `fs.write(file, content)` that returns true. -/
structure Written where
  content : Bytes
  accepted : Nat
  pos : 0 < accepted
  le : accepted ≤ (cstr content).length

def Written.call (w : Written) : WriteCall := ⟨w.content, true, w.accepted, w.le⟩

/-- The file after the calls, if it did not exist before. -/
def fileAfter (filename : String) (ws : List Written) : File :=
  ws.foldl (fun file w => (lFsWrite filename file w.call).2) none

/-- The strings, one after the other. -/
def concatenation (ws : List Written) : Bytes := ws.flatMap Written.content

/-- The bytes that `fwrite` accepts. -/
def storedBytes (ws : List Written) : Bytes :=
  ws.flatMap fun w => (cstr w.content).take w.accepted

/-- The table read holds the lines of the strings, and has no other keys. -/
def RoundTrip (filename : String) (ws : List Written) : Prop :=
  ∀ s, fileAfter filename ws = some s →
    ∃ t, lFsRead (some s) = some (.ok t) ∧
      ∀ k, t k = if k = 0 then none else (lines (concatenation ws))[k - 1]?

/-- The calls that return true are those of a `Written`. -/
theorem lFsWrite_true_iff (filename : String) (file : File) (w : WriteCall) :
    (lFsWrite filename file w).1 = .ok true ↔ ∃ w' : Written, w'.call = w := by
  constructor
  · intro h
    obtain ⟨content, opens, accepted, le⟩ := w
    unfold lFsWrite at h
    cases opens with
    | false => cases h
    | true =>
      have hpos : decide (0 < accepted) = true := by simpa using h
      exact ⟨⟨content, accepted, of_decide_eq_true hpos, le⟩, rfl⟩
  · rintro ⟨w', rfl⟩
    show Except.ok (decide (0 < w'.accepted)) = _
    rw [decide_eq_true w'.pos]

theorem fileAfter_eq (filename : String) (ws : List Written) (h : ws ≠ []) :
    fileAfter filename ws = some (storedBytes ws) := by
  have hfold : ∀ (ws : List Written) (s : Bytes),
      ws.foldl (fun file w => (lFsWrite filename file w.call).2) (some s) =
        some (s ++ storedBytes ws) := by
    intro ws
    induction ws with
    | nil =>
      intro s
      show some s = some (s ++ [])
      rw [List.append_nil]
    | cons w ws ih =>
      intro s
      show ws.foldl _ (some (s ++ (cstr w.content).take w.accepted)) = _
      rw [ih, List.append_assoc]
      rfl
  obtain ⟨w, ws, rfl⟩ := List.exists_cons_of_ne_nil h
  exact hfold ws ((cstr w.content).take w.accepted)

theorem zero_not_mem_storedBytes (ws : List Written) : (0 : UInt8) ∉ storedBytes ws := by
  intro h
  obtain ⟨w, -, hw⟩ := List.mem_flatMap.mp h
  exact zero_not_mem_cstr w.content (List.mem_of_mem_take hw)

/-- Where `fwrite` accepts the strings whole, wrapping keeps their lines if each
line with a newline is shorter than 63 bytes, and an open last one not longer. -/
theorem lines_wrap_storedBytes_iff (ws : List Written)
    (hwhole : ∀ w ∈ ws, 0 ∉ w.content ∧ w.accepted = w.content.length) :
    lines (wrap 63 (storedBytes ws)) = lines (concatenation ws) ↔
      Short 63 (concatenation ws) := by
  have heq : storedBytes ws = concatenation ws := by
    apply List.flatMap_congr
    intro w hw
    obtain ⟨h0, hlen⟩ := hwhole w hw
    rw [cstr_of_not_mem h0, hlen, List.take_length]
  rw [heq]
  exact lines_wrap_iff 63 (by omega) _

/-- **Round trip.**  The strings have no NUL and at most 255 lines, and the bytes
accepted, with a newline after every 63 of a line, have the same lines. -/
theorem fs_round_trip_iff (filename : String) (ws : List Written) :
    RoundTrip filename ws ↔
      (∀ w ∈ ws, 0 ∉ w.content) ∧ (lines (concatenation ws)).length ≤ 255 ∧
        lines (wrap 63 (storedBytes ws)) = lines (concatenation ws) := by
  have hrows := readRows_eq_lines (storedBytes ws) (zero_not_mem_storedBytes ws)
  constructor
  · intro h
    by_cases hnil : ws = []
    · subst hnil
      exact ⟨by simp, by decide, rfl⟩
    obtain ⟨t, ht, htable⟩ := h _ (fileAfter_eq filename ws hnil)
    rw [lFsRead_eq, hrows] at ht
    cases ht
    have hle : (lines (wrap 63 (storedBytes ws))).length ≤ 255 := by
      by_contra hgt
      exact tableOf_zero _ (by omega) (htable 0)
    have heq : lines (wrap 63 (storedBytes ws)) = lines (concatenation ws) := by
      ext j : 1
      have := htable (j + 1)
      rwa [tableOf_eq _ hle, if_neg (by omega), if_neg (by omega)] at this
    refine ⟨fun w hw h0 => ?_, by rw [← heq]; exact hle, heq⟩
    -- a NUL would be in a line, and no row read has one
    have hmem : (0 : UInt8) ∈ concatenation ws := List.mem_flatMap.mpr ⟨w, hw, h0⟩
    obtain ⟨l, hl, hl0⟩ := exists_line_of_mem (by decide) hmem
    rw [← heq, ← hrows] at hl
    exact (mem_readRows _ l hl).2.1 hl0
  · rintro ⟨-, hle, heq⟩ s hs
    have hnil : ws ≠ [] := by
      rintro rfl
      cases hs
    rw [fileAfter_eq filename ws hnil] at hs
    cases hs
    refine ⟨tableOf (readRows (storedBytes ws)), lFsRead_eq _, fun k => ?_⟩
    rw [hrows, heq, tableOf_eq _ hle]

/-- A line of 63 bytes: its newline is read as a second, empty line. -/
theorem fs_round_trip_fails :
    ¬ ∀ filename ws, RoundTrip filename ws := by
  intro h
  let w : Written := ⟨List.replicate 63 97 ++ [newline], 64, by decide, by decide⟩
  obtain ⟨t, ht, htable⟩ := h "/home/a" [w] _ rfl
  rw [lFsRead_eq] at ht
  cases ht
  have h2 := htable 2
  exact absurd h2 (by decide +kernel)

end CLIos
