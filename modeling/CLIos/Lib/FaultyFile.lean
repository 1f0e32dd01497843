import CLIos.Lib.TextFile

/-!
# Files whose calls fail

A call that fails does a part of its work: reading ends before the file does, a
write accepts a prefix of what it is given, and closing keeps a prefix of what
was accepted.  `cut n` is such a prefix, the whole list if there is no failure.

A text of rows that went through such calls is the intended one only if nothing
was cut (`stored_eq_iff`), also when some of its rows were lost on reading and
are empty or missing (`Thinner`).
-/

namespace TextFile

/-- The first `n` elements, or all. -/
def cut {α : Type} : Option Nat → List α → List α
  | none, l => l
  | some n, l => l.take n

theorem prefix_cut {α : Type} (n : Option Nat) (l : List α) : cut n l <+: l := by
  cases n with
  | none => exact List.prefix_rfl
  | some n => exact List.take_prefix n l

theorem length_cut_eq_iff {α : Type} (n : Option Nat) (l : List α) :
    (cut n l).length = l.length ↔ ∀ k, n = some k → l.length ≤ k := by
  cases n with
  | none => simp [cut]
  | some n =>
    show (l.take n).length = l.length ↔ ∀ k, some n = some k → l.length ≤ k
    rw [List.length_take]
    constructor
    · intro h k hk
      obtain rfl := Option.some.inj hk
      omega
    · intro h
      have := h n rfl
      omega

theorem cut_eq_self_iff {α : Type} (n : Option Nat) (l : List α) :
    cut n l = l ↔ ∀ k, n = some k → l.length ≤ k := by
  rw [← length_cut_eq_iff]
  exact ⟨fun h => congrArg List.length h, (prefix_cut n l).eq_of_length⟩

theorem getElem?_cut {α : Type} (n : Option Nat) (l : List α) (j : Nat) :
    (cut n l)[j]? = if j < (cut n l).length then l[j]? else none := by
  by_cases hj : j < (cut n l).length
  · obtain ⟨rest, hrest⟩ := prefix_cut n l
    rw [if_pos hj]
    conv => rhs; rw [← hrest]
    rw [List.getElem?_append_left hj]
  · rw [if_neg hj, List.getElem?_eq_none (by omega)]

theorem map_cut {α β : Type} (f : α → β) (n : Option Nat) (l : List α) :
    (cut n l).map f = cut n (l.map f) := by
  cases n with
  | none => rfl
  | some n => exact List.map_take

/-! ## Reading -/

/-- `while (fgets(..)) body`, where the call of `fgets` after `n` others fails. -/
def failGo {σ : Type} (k : Nat) (body : σ → Bytes → Option σ) : Nat → Bytes → σ → Option σ
  | 0, _, st => some st
  | n + 1, s, st =>
    match fgets k s with
    | none => some st
    | some (p, rest) => (body st p).bind (failGo k body n rest)

/-- The loop, with the call that fails if one does. -/
def whileFgetsFail {σ : Type} (k : Nat) (body : σ → Bytes → Option σ) :
    Option Nat → Bytes → σ → Option σ
  | none, s, st => whileFgets k body s st
  | some n, s, st => failGo k body n s st

theorem whileFgetsFail_eq {σ : Type} (k : Nat) (hk : 0 < k) (body : σ → Bytes → Option σ)
    (fails : Option Nat) (s : Bytes) (st : σ) :
    whileFgetsFail k body fails s st = (cut fails (pieces k s)).foldlM body st := by
  cases fails with
  | none => exact whileFgets_eq k hk body s st
  | some n =>
    show failGo k body n s st = ((pieces k s).take n).foldlM body st
    induction n generalizing s st with
    | zero => rfl
    | succ n ih =>
      rw [pieces_eq k hk s]
      unfold failGo
      cases h : fgets k s with
      | none => rfl
      | some pr =>
        show (body st pr.1).bind _ = List.foldlM body st (pr.1 :: (pieces k pr.2).take n)
        rw [List.foldlM_cons]
        exact Option.bind_congr fun st' _ => ih pr.2 st'

/-! ## Writing -/

/-- Rows written with a newline each, the row `j` as far as it is accepted. -/
def shortWrites (accepted : Nat → Option Nat) (rows : List Bytes) : Bytes :=
  rows.zipIdx.flatMap fun r => cut (accepted r.2) (r.1 ++ [newline])

theorem shortWrites_concat (accepted : Nat → Option Nat) (rows : List Bytes) (row : Bytes) :
    shortWrites accepted (rows ++ [row]) =
      shortWrites accepted rows ++ cut (accepted rows.length) (row ++ [newline]) := by
  unfold shortWrites
  rw [List.zipIdx_append, List.flatMap_append, Nat.zero_add]
  exact congrArg _ (List.flatMap_singleton _ _)

/-- Every row is accepted as a whole. -/
def AllAccepted (accepted : Nat → Option Nat) (rows : List Bytes) : Prop :=
  ∀ (j : Nat) (row : Bytes), rows[j]? = some row → ∀ k, accepted j = some k → row.length + 1 ≤ k

theorem allAccepted_nil (accepted : Nat → Option Nat) : AllAccepted accepted [] := by
  intro j row h
  cases h

theorem allAccepted_concat (accepted : Nat → Option Nat) (rows : List Bytes) (row : Bytes) :
    AllAccepted accepted (rows ++ [row]) ↔ AllAccepted accepted rows ∧
      ∀ k, accepted rows.length = some k → row.length + 1 ≤ k := by
  constructor
  · intro h
    refine ⟨fun j r hj => h j r ?_, h rows.length row List.getElem?_concat_length⟩
    rw [List.getElem?_append_left (List.getElem?_eq_some_iff.mp hj).1, hj]
  · rintro ⟨h, hlast⟩ j r hj
    by_cases hlt : j < rows.length
    · rw [List.getElem?_append_left hlt] at hj
      exact h j r hj
    · have hlen := (List.getElem?_eq_some_iff.mp hj).1
      rw [List.length_append, List.length_singleton] at hlen
      obtain rfl : j = rows.length := by omega
      rw [List.getElem?_concat_length] at hj
      obtain rfl := Option.some.inj hj
      exact hlast

theorem shortWrites_spec (accepted : Nat → Option Nat) (rows : List Bytes) :
    (shortWrites accepted rows).length ≤ (unlines rows).length ∧
      ((shortWrites accepted rows).length = (unlines rows).length ↔ AllAccepted accepted rows) ∧
      (AllAccepted accepted rows → shortWrites accepted rows = unlines rows) := by
  induction rows using List.reverseRecOn with
  | nil => exact ⟨Nat.le_refl _, iff_of_true rfl (allAccepted_nil accepted), fun _ => rfl⟩
  | append_singleton rows row ih =>
    obtain ⟨hle, hiff, heq⟩ := ih
    have hcut := (prefix_cut (accepted rows.length) (row ++ [newline])).length_le
    have hcutiff := length_cut_eq_iff (accepted rows.length) (row ++ [newline])
    rw [shortWrites_concat, unlines_append, unlines_singleton, allAccepted_concat, ← hiff]
    simp only [List.length_append, List.length_singleton] at hcut hcutiff ⊢
    rw [← hcutiff]
    refine ⟨by omega, by omega, ?_⟩
    rintro ⟨hfull, hlast⟩
    rw [heq (hiff.mp hfull), (prefix_cut _ _).eq_of_length
      (by rw [hlast, List.length_append, List.length_singleton])]

/-! ## Rows lost on reading -/

/-- Every row is the one in its place, or empty. -/
def Thinner (rows rows' : List Bytes) : Prop :=
  ∀ (j : Nat) (row : Bytes), rows[j]? = some row →
    ∃ row', rows'[j]? = some row' ∧ (row = row' ∨ row = [])

theorem Thinner.length_spec {rows rows' : List Bytes} (h : Thinner rows rows') :
    (unlines rows).length ≤ (unlines rows').length ∧
      ((unlines rows).length = (unlines rows').length → rows = rows') := by
  induction rows generalizing rows' with
  | nil =>
    refine ⟨Nat.zero_le _, fun hlen => ?_⟩
    cases rows' with
    | nil => rfl
    | cons row' rows' =>
      simp only [unlines, List.flatMap_nil, List.length_nil, List.flatMap_cons,
        List.length_append, List.length_singleton] at hlen
      omega
  | cons row rows ih =>
    obtain ⟨row', hrow', hsame⟩ := h 0 row rfl
    obtain ⟨rest, rfl⟩ : ∃ rest, rows' = row' :: rest := by
      cases rows' with
      | nil => cases hrow'
      | cons r rest => exact ⟨rest, by rw [← Option.some.inj hrow']⟩
    obtain ⟨hle, heq⟩ := ih fun j r hj => h (j + 1) r hj
    have hlen : row.length ≤ row'.length ∧ (row.length = row'.length → row = row') := by
      rcases hsame with rfl | rfl
      · exact ⟨Nat.le_refl _, fun _ => rfl⟩
      · exact ⟨Nat.zero_le _, fun h0 => (List.length_eq_zero_iff.mp h0.symm).symm⟩
    simp only [unlines, List.flatMap_cons, List.length_append, List.length_singleton] at hle heq ⊢
    refine ⟨by omega, fun hsum => ?_⟩
    rw [hlen.2 (by omega), heq (by omega)]

/-- What is stored is the intended text exactly if no row was lost and no call
fell short. -/
theorem stored_eq_iff {rows rows' : List Bytes} (h : Thinner rows rows')
    (accepted : Nat → Option Nat) (kept : Option Nat) :
    cut kept (shortWrites accepted rows) = unlines rows' ↔
      rows = rows' ∧ AllAccepted accepted rows' ∧
        ∀ k, kept = some k → (unlines rows').length ≤ k := by
  obtain ⟨hle, hiff, heq⟩ := shortWrites_spec accepted rows
  constructor
  · intro hstored
    have hlen := congrArg List.length hstored
    have hcut := (prefix_cut kept (shortWrites accepted rows)).length_le
    have hthin := h.length_spec
    obtain rfl := hthin.2 (by omega)
    have hall := hiff.mp (by omega)
    rw [heq hall] at hstored
    exact ⟨rfl, hall, (cut_eq_self_iff kept _).mp hstored⟩
  · rintro ⟨rfl, hall, hkept⟩
    rw [heq hall]
    exact (cut_eq_self_iff kept _).mpr hkept

end TextFile
