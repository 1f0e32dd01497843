import Mathlib.Data.List.Infix
import Mathlib.Data.List.TakeWhile
import Mathlib.Tactic.Common

/-!
# Text files and `fgets`

A file is its list of bytes.  `fgets k` takes from a stream what one call with
room for `k` bytes (and a NUL) takes: up to and including the next newline, `k`
bytes at most.  `pieces k` cuts a whole file that way, and a `while (fgets ..)`
loop is a fold over the pieces (`whileFgets_eq`).

`lines` are the lines of a file; a newline ends a line, so one at the end begins
no further line.  `wrap k` puts a newline after every `k` bytes of a line: the
pieces of a file, without their newlines, are the lines of the wrapped file.
-/

namespace TextFile

abbrev Bytes := List UInt8

def newline : UInt8 := 10

/-- The C string at the start of a buffer. -/
def cstr (b : Bytes) : Bytes := b.takeWhile (· ≠ 0)

/-! ## Streams -/

def fgetsSplit : Nat → Bytes → Bytes × Bytes
  | 0, s => ([], s)
  | _ + 1, [] => ([], [])
  | k + 1, c :: s =>
    if c = newline then ([c], s) else (c :: (fgetsSplit k s).1, (fgetsSplit k s).2)

/-- The bytes taken and the rest of the stream; NULL at the end of the file. -/
def fgets (k : Nat) (s : Bytes) : Option (Bytes × Bytes) :=
  if s = [] then none else some (fgetsSplit k s)

/-- `while (fgets(buf, k + 1, f)) body(buf)`, for at most `fuel` rounds. -/
def whileGo {σ : Type} (k : Nat) (body : σ → Bytes → Option σ) : Nat → Bytes → σ → Option σ
  | 0, _, _ => none
  | fuel + 1, s, st =>
    match fgets k s with
    | none => some st
    | some (p, rest) => (body st p).bind (whileGo k body fuel rest)

/-- Every round takes a byte at least, so the loop ends before the fuel does. -/
def whileFgets {σ : Type} (k : Nat) (body : σ → Bytes → Option σ) (s : Bytes) (st : σ) : Option σ :=
  whileGo k body (s.length + 1) s st

def piecesGo (k : Nat) (acc : Bytes) : Bytes → List Bytes
  | [] => if acc = [] then [] else [acc]
  | c :: s =>
    if c = newline ∨ acc.length + 1 = k then (acc ++ [c]) :: piecesGo k [] s
    else piecesGo k (acc ++ [c]) s

/-- What successive calls of `fgets` take from the file. -/
def pieces (k : Nat) (s : Bytes) : List Bytes := piecesGo k [] s

theorem piecesGo_eq (k : Nat) (s acc : Bytes) (hacc : acc.length < k) (hs : s ≠ []) :
    piecesGo k acc s =
      (acc ++ (fgetsSplit (k - acc.length) s).1) ::
        pieces k (fgetsSplit (k - acc.length) s).2 := by
  induction s generalizing acc with
  | nil => exact absurd rfl hs
  | cons c s ih =>
    obtain ⟨j, hj⟩ : ∃ j, k - acc.length = j + 1 := ⟨k - acc.length - 1, by omega⟩
    rw [hj]
    unfold piecesGo fgetsSplit
    by_cases hc : c = newline
    · rw [if_pos (Or.inl hc), if_pos hc]
      rfl
    · rw [if_neg hc]
      by_cases hk : acc.length + 1 = k
      · obtain rfl : j = 0 := by omega
        rw [if_pos (Or.inr hk)]
        rfl
      · rw [if_neg (by rintro (h | h); exacts [hc h, hk h])]
        have hlen : (acc ++ [c]).length = acc.length + 1 := by
          rw [List.length_append, List.length_singleton]
        have hj' : k - (acc ++ [c]).length = j := by omega
        cases s with
        | nil =>
          -- the file ends before the buffer is full
          obtain ⟨i, rfl⟩ : ∃ i, j = i + 1 := ⟨j - 1, by omega⟩
          show (if acc ++ [c] = [] then [] else [acc ++ [c]]) = _
          rw [if_neg (by simp)]
          rfl
        | cons d s =>
          rw [ih (acc ++ [c]) (by omega) (by simp), hj', List.append_assoc]
          rfl

theorem pieces_eq (k : Nat) (hk : 0 < k) (s : Bytes) :
    pieces k s = match fgets k s with
      | none => []
      | some (p, rest) => p :: pieces k rest := by
  unfold fgets
  by_cases hs : s = []
  · rw [if_pos hs, hs]
    rfl
  · rw [if_neg hs]
    exact piecesGo_eq k s [] hk hs

theorem length_fgetsSplit (k : Nat) (s : Bytes) :
    (fgetsSplit k s).1.length + (fgetsSplit k s).2.length = s.length := by
  induction k generalizing s with
  | zero => exact Nat.zero_add _
  | succ k ih =>
    cases s with
    | nil => rfl
    | cons c s =>
      unfold fgetsSplit
      by_cases hc : c = newline
      · rw [if_pos hc]
        simp only [List.length_cons, List.length_nil]
        omega
      · rw [if_neg hc]
        have := ih s
        simp only [List.length_cons]
        omega

theorem drop_length_fgetsSplit (k : Nat) (s : Bytes) :
    s.drop (fgetsSplit k s).1.length = (fgetsSplit k s).2 := by
  induction k generalizing s with
  | zero => rfl
  | succ k ih =>
    cases s with
    | nil => rfl
    | cons c s =>
      unfold fgetsSplit
      by_cases hc : c = newline
      · rw [if_pos hc]
        rfl
      · rw [if_neg hc]
        exact ih s

theorem fgets_rest_lt {k : Nat} (hk : 0 < k) {s p rest : Bytes} (h : fgets k s = some (p, rest)) :
    rest.length < s.length := by
  unfold fgets at h
  by_cases hs : s = []
  · rw [if_pos hs] at h
    cases h
  · rw [if_neg hs] at h
    obtain ⟨c, s, rfl⟩ := List.exists_cons_of_ne_nil hs
    obtain ⟨k, rfl⟩ : ∃ j, k = j + 1 := ⟨k - 1, by omega⟩
    have hsplit := length_fgetsSplit (k + 1) (c :: s)
    have hpos : 0 < (fgetsSplit (k + 1) (c :: s)).1.length := by
      unfold fgetsSplit
      split <;> simp
    rw [Option.some.inj h] at hsplit hpos
    show rest.length < (c :: s).length
    simp only at hsplit hpos
    omega

theorem whileFgets_eq {σ : Type} (k : Nat) (hk : 0 < k) (body : σ → Bytes → Option σ) (s : Bytes)
    (st : σ) : whileFgets k body s st = (pieces k s).foldlM body st := by
  have hgo : ∀ (fuel : Nat) (s : Bytes) (st : σ), s.length < fuel →
      whileGo k body fuel s st = (pieces k s).foldlM body st := by
    intro fuel
    induction fuel with
    | zero => intro s st h; omega
    | succ fuel ih =>
      intro s st hfuel
      rw [pieces_eq k hk s]
      unfold whileGo
      cases h : fgets k s with
      | none => rfl
      | some pr =>
        obtain ⟨p, rest⟩ := pr
        have hlt := fgets_rest_lt hk h
        show (body st p).bind _ = List.foldlM body st (p :: pieces k rest)
        rw [List.foldlM_cons]
        congr 1
        funext st'
        exact ih rest st' (by omega)
  exact hgo _ s st (by omega)

/-- The loop at `offset`: it reads a piece, and goes on behind it. -/
theorem whileFgets_drop {σ : Type} (k : Nat) (hk : 0 < k) (body : σ → Bytes → Option σ) (s : Bytes)
    (offset : Nat) (st : σ) :
    whileFgets k body (s.drop offset) st =
      match (fgets k (s.drop offset)).map Prod.fst with
      | none => some st
      | some p => (body st p).bind (whileFgets k body (s.drop (offset + p.length))) := by
  rw [whileFgets_eq k hk, pieces_eq k hk]
  unfold fgets
  split
  · next h =>
    split at h
    · next hnil => rw [if_pos hnil]; rfl
    · cases h
  · next p rest h =>
    split at h
    · cases h
    · next hne =>
      have hsplit := Option.some.inj h
      have hrest := drop_length_fgetsSplit k (s.drop offset)
      rw [hsplit, List.drop_drop] at hrest
      rw [if_neg hne, hsplit, List.foldlM_cons]
      show (body st p).bind _ = (body st p).bind _
      refine congrArg (Option.bind (body st p)) (funext fun st' => ?_)
      rw [whileFgets_eq k hk, hrest]

/-! ## Lines -/

def linesGo (acc : Bytes) : Bytes → List Bytes
  | [] => if acc = [] then [] else [acc]
  | c :: s => if c = newline then acc :: linesGo [] s else linesGo (acc ++ [c]) s

/-- The lines of a file. -/
def lines (s : Bytes) : List Bytes := linesGo [] s

/-- The file with these lines, each ended by a newline. -/
def unlines (rows : List Bytes) : Bytes := rows.flatMap (· ++ [newline])

@[simp] theorem lines_nil : lines [] = [] := rfl

@[simp] theorem unlines_nil : unlines [] = [] := rfl

theorem unlines_append (rows rows' : List Bytes) :
    unlines (rows ++ rows') = unlines rows ++ unlines rows' := List.flatMap_append

theorem unlines_singleton (r : Bytes) : unlines [r] = r ++ [newline] := List.flatMap_singleton _ _

theorem linesGo_newline (acc s : Bytes) : linesGo acc (newline :: s) = acc :: lines s := if_pos rfl

theorem linesGo_cons (acc s : Bytes) {c : UInt8} (hc : c ≠ newline) :
    linesGo acc (c :: s) = linesGo (acc ++ [c]) s := if_neg hc

theorem linesGo_append_newline (acc u v : Bytes) :
    linesGo acc (u ++ newline :: v) = linesGo acc (u ++ [newline]) ++ lines v := by
  induction u generalizing acc with
  | nil =>
    rw [List.nil_append, List.nil_append, linesGo_newline, linesGo_newline]
    rfl
  | cons c u ih =>
    rw [List.cons_append, List.cons_append]
    by_cases hc : c = newline
    · subst hc
      rw [linesGo_newline, linesGo_newline, lines, ih []]
      rfl
    · rw [linesGo_cons _ _ hc, linesGo_cons _ _ hc, ih (acc ++ [c])]

/-- A newline cuts the file: the lines after it do not depend on those before. -/
theorem lines_append_newline (u v : Bytes) :
    lines (u ++ newline :: v) = lines (u ++ [newline]) ++ lines v :=
  linesGo_append_newline [] u v

theorem linesGo_line (acc u : Bytes) (hu : newline ∉ u) :
    linesGo acc (u ++ [newline]) = [acc ++ u] := by
  induction u generalizing acc with
  | nil => rw [List.nil_append, linesGo_newline, List.append_nil, lines_nil]
  | cons c u ih =>
    rw [List.mem_cons, not_or] at hu
    rw [List.cons_append, linesGo_cons _ _ (Ne.symm hu.1), ih (acc ++ [c]) hu.2, List.append_assoc]
    rfl

theorem lines_unlines_append (rows : List Bytes) (h : ∀ r ∈ rows, newline ∉ r) (v : Bytes) :
    lines (unlines rows ++ v) = rows ++ lines v := by
  induction rows with
  | nil => rfl
  | cons r rows ih =>
    have hr := h r List.mem_cons_self
    show lines ((r ++ [newline]) ++ unlines rows ++ v) = _
    rw [List.append_assoc, List.append_assoc, List.singleton_append, lines_append_newline,
      ih fun r' hr' => h r' (List.mem_cons_of_mem r hr')]
    rw [lines, linesGo_line [] r hr]
    rfl

theorem lines_unlines (rows : List Bytes) (h : ∀ r ∈ rows, newline ∉ r) :
    lines (unlines rows) = rows := by
  have := lines_unlines_append rows h []
  rwa [List.append_nil, lines_nil, List.append_nil] at this

/-- One row that may hold newlines itself, among rows that do not. -/
theorem lines_unlines_middle (rows rows' : List Bytes) (row : Bytes)
    (h : ∀ r ∈ rows, newline ∉ r) (h' : ∀ r ∈ rows', newline ∉ r) :
    lines (unlines (rows ++ row :: rows')) = rows ++ lines (row ++ [newline]) ++ rows' := by
  have hrow : unlines (row :: rows') = row ++ newline :: unlines rows' := by
    show (row ++ [newline]) ++ unlines rows' = _
    rw [List.append_assoc]
    rfl
  rw [unlines_append, lines_unlines_append rows h, hrow, lines_append_newline,
    lines_unlines rows' h', List.append_assoc]

theorem mem_linesGo {c : UInt8} (hc : c ≠ newline) (s acc : Bytes) (h : c ∈ acc ++ s) :
    ∃ l ∈ linesGo acc s, c ∈ l := by
  induction s generalizing acc with
  | nil =>
    rw [List.append_nil] at h
    unfold linesGo
    rw [if_neg (List.ne_nil_of_mem h)]
    exact ⟨acc, List.mem_singleton_self _, h⟩
  | cons d s ih =>
    by_cases hd : d = newline
    · subst hd
      rw [linesGo_newline]
      rcases List.mem_append.mp h with h | h
      · exact ⟨acc, List.mem_cons_self, h⟩
      · have hs : c ∈ s := (List.mem_cons.mp h).resolve_left hc
        obtain ⟨l, hl, hcl⟩ := ih [] hs
        exact ⟨l, List.mem_cons_of_mem _ hl, hcl⟩
    · rw [linesGo_cons _ _ hd]
      apply ih
      rw [List.append_assoc]
      exact h

/-- Every byte but the newlines is in some line. -/
theorem exists_line_of_mem {c : UInt8} (hc : c ≠ newline) {s : Bytes} (h : c ∈ s) :
    ∃ l ∈ lines s, c ∈ l :=
  mem_linesGo hc s [] h

/-! ## Wrapping -/

def wrapGo (k : Nat) : Nat → Bytes → Bytes
  | _, [] => []
  | n, c :: s =>
    if c = newline then c :: wrapGo k 0 s
    else if n + 1 = k then c :: newline :: wrapGo k 0 s
    else c :: wrapGo k (n + 1) s

/-- The file with a newline after every `k` bytes of a line. -/
def wrap (k : Nat) (s : Bytes) : Bytes := wrapGo k 0 s

theorem wrapGo_newline (k n : Nat) (s : Bytes) :
    wrapGo k n (newline :: s) = newline :: wrap k s := if_pos rfl

theorem wrapGo_full (k n : Nat) (s : Bytes) {c : UInt8} (hc : c ≠ newline) (hk : n + 1 = k) :
    wrapGo k n (c :: s) = c :: newline :: wrap k s := by
  unfold wrapGo
  rw [if_neg hc, if_pos hk]
  rfl

theorem wrapGo_cons (k n : Nat) (s : Bytes) {c : UInt8} (hc : c ≠ newline) (hk : n + 1 ≠ k) :
    wrapGo k n (c :: s) = c :: wrapGo k (n + 1) s := by
  conv_lhs => unfold wrapGo
  rw [if_neg hc, if_neg hk]

/-- The piece without its newline. -/
def trimNewline (p : Bytes) : Bytes := if p.getLast? = some newline then p.dropLast else p

theorem trimNewline_line (u : Bytes) : trimNewline (u ++ [newline]) = u := by
  unfold trimNewline
  rw [if_pos List.getLast?_concat, List.dropLast_concat]

theorem trimNewline_of_not_mem (u : Bytes) (hu : newline ∉ u) : trimNewline u = u := by
  unfold trimNewline
  exact if_neg fun h => hu (List.mem_of_getLast? h)

theorem map_trim_piecesGo (k : Nat) (s acc : Bytes) (hacc : acc.length < k)
    (hn : newline ∉ acc) :
    (piecesGo k acc s).map trimNewline = linesGo acc (wrapGo k acc.length s) := by
  induction s generalizing acc with
  | nil =>
    show List.map _ (if acc = [] then [] else [acc]) = if acc = [] then [] else [acc]
    by_cases h : acc = []
    · rw [if_pos h]
      rfl
    · rw [if_neg h, List.map_singleton, trimNewline_of_not_mem acc hn]
  | cons c s ih =>
    have hnil : (piecesGo k [] s).map trimNewline = lines (wrap k s) :=
      ih [] (by show 0 < k; omega) List.not_mem_nil
    unfold piecesGo
    by_cases hc : c = newline
    · subst hc
      rw [if_pos (Or.inl rfl), wrapGo_newline, linesGo_newline, List.map_cons, trimNewline_line, hnil]
    · have hn' : newline ∉ acc ++ [c] := by
        rw [List.mem_append, List.mem_singleton, not_or]
        exact ⟨hn, Ne.symm hc⟩
      by_cases hk : acc.length + 1 = k
      · rw [if_pos (Or.inr hk), wrapGo_full _ _ _ hc hk, linesGo_cons _ _ hc, linesGo_newline,
          List.map_cons, hnil, trimNewline_of_not_mem _ hn']
      · have hlen : (acc ++ [c]).length = acc.length + 1 := by
          rw [List.length_append, List.length_singleton]
        rw [if_neg (by rintro (h | h); exacts [hc h, hk h]), wrapGo_cons _ _ _ hc hk,
          linesGo_cons _ _ hc, ih (acc ++ [c]) (by omega) hn', hlen]

/-- The pieces without their newlines are the lines of the wrapped file. -/
theorem map_trim_pieces (k : Nat) (hk : 0 < k) (s : Bytes) :
    (pieces k s).map trimNewline = lines (wrap k s) :=
  map_trim_piecesGo k s [] hk List.not_mem_nil

/-- What becomes of a row of at most `k` bytes that is written with a newline
and read again. -/
def reread (k : Nat) (r : Bytes) : List Bytes := if r.length = k then [r, []] else [r]

theorem wrapGo_line (k : Nat) (r s : Bytes) (n : Nat) (hr : newline ∉ r) (hk : n < k)
    (hlen : n + r.length ≤ k) :
    wrapGo k n (r ++ newline :: s) =
      r ++ newline :: (if n + r.length = k then [newline] else []) ++ wrap k s := by
  induction r generalizing n with
  | nil =>
    have hne : ¬ n + ([] : Bytes).length = k := by
      show ¬ n + 0 = k
      omega
    rw [if_neg hne, List.nil_append, wrapGo_newline]
    rfl
  | cons c r ih =>
    rw [List.mem_cons, not_or] at hr
    rw [List.length_cons] at hlen ⊢
    rw [List.cons_append]
    by_cases hfull : n + 1 = k
    · obtain rfl : r = [] := List.eq_nil_of_length_eq_zero (by omega)
      rw [wrapGo_full _ _ _ (Ne.symm hr.1) hfull, if_pos (by rw [List.length_nil]; omega), wrap,
        List.nil_append, wrapGo_newline]
      rfl
    · have heq : n + 1 + r.length = n + (r.length + 1) := by omega
      rw [wrapGo_cons _ _ _ (Ne.symm hr.1) hfull, ih (n + 1) hr.2 (by omega) (by omega), heq]
      rfl

theorem wrap_unlines (k : Nat) (hk : 0 < k) (rows : List Bytes)
    (h : ∀ r ∈ rows, newline ∉ r ∧ r.length ≤ k) :
    wrap k (unlines rows) = unlines (rows.flatMap (reread k)) := by
  induction rows with
  | nil => rfl
  | cons r rows ih =>
    obtain ⟨hr, hlen⟩ := h r List.mem_cons_self
    have ih := ih fun r' hr' => h r' (List.mem_cons_of_mem r hr')
    show wrapGo k 0 ((r ++ [newline]) ++ unlines rows) = unlines (reread k r ++ rows.flatMap _)
    rw [List.append_assoc, List.singleton_append, wrapGo_line k r _ 0 hr hk (by omega),
      unlines_append, ← ih, Nat.zero_add]
    unfold reread
    by_cases hfull : r.length = k
    · rw [if_pos hfull, if_pos hfull]
      show _ = (r ++ [newline] ++ ([] ++ [newline] ++ [])) ++ wrap k (unlines rows)
      rw [List.append_nil, List.nil_append, List.append_assoc, List.append_assoc, List.append_assoc]
      rfl
    · rw [if_neg hfull, if_neg hfull, unlines_singleton]

/-- Rows written with a newline each and read again by `fgets`. -/
theorem map_trim_pieces_unlines (k : Nat) (hk : 0 < k) (rows : List Bytes)
    (h : ∀ r ∈ rows, newline ∉ r ∧ r.length ≤ k) :
    (pieces k (unlines rows)).map trimNewline = rows.flatMap (reread k) := by
  rw [map_trim_pieces k hk, wrap_unlines k hk rows h]
  apply lines_unlines
  intro r hr
  obtain ⟨r', hr', hmem⟩ := List.mem_flatMap.mp hr
  unfold reread at hmem
  split at hmem
  · rcases List.mem_cons.mp hmem with rfl | hmem
    · exact (h r hr').1
    · rw [List.mem_singleton.mp hmem]
      exact List.not_mem_nil
  · rw [List.mem_singleton.mp hmem]
    exact (h r' hr').1

/-! ## What the pieces are like -/

theorem mem_piecesGo (k : Nat) (hk : 0 < k) (s acc : Bytes) (hacc : acc.length < k)
    (hn : newline ∉ acc) : ∀ p ∈ piecesGo k acc s, p.length ≤ k ∧ newline ∉ p.dropLast := by
  have hlast : ∀ c : UInt8, (acc ++ [c]).length ≤ k ∧ newline ∉ (acc ++ [c]).dropLast := by
    intro c
    rw [List.length_append, List.length_singleton, List.dropLast_concat]
    exact ⟨by omega, hn⟩
  induction s generalizing acc with
  | nil =>
    intro p hp
    have hp : p ∈ if acc = [] then [] else [acc] := hp
    split at hp
    · cases hp
    · rw [List.mem_singleton.mp hp]
      exact ⟨by omega, fun h => hn (List.mem_of_mem_dropLast h)⟩
  | cons c s ih =>
    intro p hp
    unfold piecesGo at hp
    have hnil : ∀ c : UInt8, ([c] : Bytes).length ≤ k ∧ newline ∉ ([c] : Bytes).dropLast :=
      fun c => ⟨hk, List.not_mem_nil⟩
    split at hp
    · rcases List.mem_cons.mp hp with rfl | hp
      · exact hlast c
      · exact ih [] hk List.not_mem_nil hnil p hp
    · next hc =>
      rw [not_or] at hc
      have hlen : (acc ++ [c]).length = acc.length + 1 := by
        rw [List.length_append, List.length_singleton]
      have hn' : newline ∉ acc ++ [c] := by
        rw [List.mem_append, List.mem_singleton, not_or]
        exact ⟨hn, Ne.symm hc.1⟩
      refine ih (acc ++ [c]) (by omega) hn' (fun d => ?_) p hp
      rw [List.length_append, List.length_singleton, List.dropLast_concat]
      exact ⟨by omega, hn'⟩

theorem zero_not_mem_cstr (b : Bytes) : (0 : UInt8) ∉ cstr b := by
  intro h
  have := List.mem_takeWhile_imp h
  simp at this

theorem cstr_of_not_mem {b : Bytes} (h : 0 ∉ b) : cstr b = b := by
  apply List.takeWhile_eq_self_iff.mpr
  intro c hc
  have hne : c ≠ 0 := fun h0 => h (h0 ▸ hc)
  simp [hne]

/-- A string ends at its NUL, whatever comes after. -/
theorem cstr_append_nul {s : Bytes} (h : 0 ∉ s) (rest : Bytes) : cstr (s ++ 0 :: rest) = s := by
  have hs : s.takeWhile (· ≠ 0) = s := cstr_of_not_mem h
  unfold cstr
  rw [List.takeWhile_append, hs, if_pos rfl]
  exact List.append_nil s

theorem cstr_append_zeros {s : Bytes} (h : 0 ∉ s) (k : Nat) :
    cstr (s ++ List.replicate k 0) = s := by
  cases k with
  | zero => rw [List.replicate_zero, List.append_nil, cstr_of_not_mem h]
  | succ k => exact cstr_append_nul h _

/-- A C string read by `fgets`, without its newline, is a row. -/
theorem mem_rows (k : Nat) (hk : 0 < k) (s : Bytes) :
    ∀ r ∈ (pieces k s).map (fun p => trimNewline (cstr p)),
      newline ∉ r ∧ 0 ∉ r ∧ r.length ≤ k := by
  intro r hr
  obtain ⟨p, hp, rfl⟩ := List.mem_map.mp hr
  obtain ⟨hlen, hn⟩ := mem_piecesGo k hk s [] hk List.not_mem_nil p hp
  obtain ⟨t, ht⟩ : cstr p <+: p := List.takeWhile_prefix _
  have hzero := zero_not_mem_cstr p
  have hclen : (cstr p).length ≤ k := by
    have := congrArg List.length ht
    rw [List.length_append] at this
    omega
  have hdrop : newline ∉ (cstr p).dropLast := by
    intro h
    apply hn
    rw [← ht]
    by_cases hnil : t = []
    · rw [hnil, List.append_nil]
      exact h
    · rw [List.dropLast_append_of_ne_nil hnil]
      exact List.mem_append_left _ (List.mem_of_mem_dropLast h)
  unfold trimNewline
  split
  · exact ⟨hdrop, fun h => hzero (List.mem_of_mem_dropLast h), by
      rw [List.length_dropLast]
      omega⟩
  · next hlast =>
    refine ⟨fun h => ?_, hzero, hclen⟩
    rcases List.eq_nil_or_concat' (cstr p) with hnil | ⟨u, c, hu⟩
    · rw [hnil] at h
      cases h
    · rw [hu] at h hlast hdrop
      rw [List.dropLast_concat] at hdrop
      rcases List.mem_append.mp h with h | h
      · exact hdrop h
      · rw [List.getLast?_concat, ← List.mem_singleton.mp h] at hlast
        exact hlast rfl

theorem flatten_piecesGo (k : Nat) (s acc : Bytes) : (piecesGo k acc s).flatten = acc ++ s := by
  induction s generalizing acc with
  | nil =>
    show (if acc = [] then [] else [acc]).flatten = _
    by_cases h : acc = []
    · rw [if_pos h, h]
      rfl
    · rw [if_neg h, List.flatten_singleton, List.append_nil]
  | cons c s ih =>
    unfold piecesGo
    split
    · rw [List.flatten_cons, ih [], List.append_assoc]
      rfl
    · rw [ih (acc ++ [c]), List.append_assoc]
      rfl

/-- In a file without NUL every piece is the C string in its buffer. -/
theorem map_trim_cstr_pieces (k : Nat) (s : Bytes) (h : 0 ∉ s) :
    (pieces k s).map (fun p => trimNewline (cstr p)) = (pieces k s).map trimNewline := by
  apply List.map_congr_left
  intro p hp
  rw [cstr_of_not_mem]
  intro h0
  apply h
  have hflat := flatten_piecesGo k s []
  rw [List.nil_append] at hflat
  rw [← hflat]
  exact List.mem_flatten.mpr ⟨p, hp, h0⟩

/-! ## Files that wrapping leaves alone -/

/-- `n` bytes into a line: every line ended by a newline is shorter than `k`
bytes, and an open last line has at most `k`. -/
def shortGo (k : Nat) : Nat → Bytes → Prop
  | n, [] => n ≤ k
  | n, c :: s => if c = newline then n < k ∧ shortGo k 0 s else shortGo k (n + 1) s

def Short (k : Nat) (s : Bytes) : Prop := shortGo k 0 s

theorem not_shortGo {k n : Nat} (h : k < n) (s : Bytes) : ¬ shortGo k n s := by
  induction s generalizing n with
  | nil => exact fun hs => absurd hs (Nat.not_le_of_lt h)
  | cons c s ih =>
    unfold shortGo
    split
    · intro hs
      omega
    · exact ih (by omega)

/-- The number of lines does not depend on what the first of them holds. -/
theorem length_linesGo (s : Bytes) {acc acc' : Bytes} (h : acc ≠ []) (h' : acc' ≠ []) :
    (linesGo acc s).length = (linesGo acc' s).length := by
  induction s generalizing acc acc' with
  | nil =>
    unfold linesGo
    rw [if_neg h, if_neg h']
    rfl
  | cons c s ih =>
    by_cases hc : c = newline
    · subst hc
      rw [linesGo_newline, linesGo_newline]
      rfl
    · rw [linesGo_cons _ _ hc, linesGo_cons _ _ hc]
      exact ih (by simp) (by simp)

theorem length_linesGo_cons (acc : Bytes) (c : UInt8) (s : Bytes) :
    (linesGo acc (c :: s)).length = (lines (c :: s)).length := by
  unfold lines
  by_cases hc : c = newline
  · subst hc
    rw [linesGo_newline, linesGo_newline]
    rfl
  · rw [linesGo_cons _ _ hc, linesGo_cons _ _ hc]
    exact length_linesGo s (by simp) (by simp)

/-- Wrapping joins no lines. -/
theorem length_linesGo_le_wrap (k : Nat) (s : Bytes) (n : Nat) (acc : Bytes) :
    (linesGo acc s).length ≤ (linesGo acc (wrapGo k n s)).length := by
  induction s generalizing n acc with
  | nil => exact Nat.le_refl _
  | cons c s ih =>
    by_cases hc : c = newline
    · subst hc
      rw [wrapGo_newline, linesGo_newline, linesGo_newline, List.length_cons, List.length_cons]
      exact Nat.succ_le_succ (ih 0 [])
    · rw [linesGo_cons _ _ hc]
      by_cases hk : n + 1 = k
      · rw [wrapGo_full _ _ _ hc hk, linesGo_cons _ _ hc, linesGo_newline, List.length_cons]
        cases s with
        | nil =>
          unfold linesGo
          rw [if_neg (by simp)]
          exact Nat.le_add_left 1 _
        | cons d s =>
          rw [length_linesGo_cons]
          exact Nat.le_succ_of_le (ih 0 [])
      · rw [wrapGo_cons _ _ _ hc hk, linesGo_cons _ _ hc]
        exact ih (n + 1) (acc ++ [c])

theorem linesGo_wrapGo_iff (k : Nat) (s : Bytes) (n : Nat) (acc : Bytes) (hn : n < k) :
    linesGo acc (wrapGo k n s) = linesGo acc s ↔ shortGo k n s := by
  induction s generalizing n acc with
  | nil => exact iff_of_true rfl (Nat.le_of_lt hn)
  | cons c s ih =>
    by_cases hc : c = newline
    · subst hc
      rw [wrapGo_newline, linesGo_newline, linesGo_newline, List.cons.injEq]
      unfold shortGo
      rw [if_pos rfl]
      exact (and_iff_right rfl).trans ((ih 0 [] (by omega)).trans (and_iff_right hn).symm)
    · have hshort : shortGo k n (c :: s) ↔ shortGo k (n + 1) s := by
        conv_lhs => unfold shortGo
        rw [if_neg hc]
      rw [hshort, linesGo_cons _ s hc]
      by_cases hk : n + 1 = k
      · rw [wrapGo_full _ _ _ hc hk, linesGo_cons _ _ hc, linesGo_newline]
        cases s with
        | nil =>
          refine iff_of_true ?_ (Nat.le_of_eq hk)
          unfold linesGo
          rw [if_neg (by simp)]
          rfl
        | cons d s =>
          -- one more byte in a full line: the wrapped file has a line more
          refine iff_of_false (fun h => ?_) (fun h => ?_)
          · have hlen := congrArg List.length h
            rw [List.length_cons, length_linesGo_cons] at hlen
            have hle := length_linesGo_le_wrap k (d :: s) 0 []
            unfold lines wrap at hlen
            omega
          · unfold shortGo at h
            split at h
            · omega
            · exact not_shortGo (by omega) s h
      · rw [wrapGo_cons _ _ _ hc hk, linesGo_cons _ _ hc]
        exact ih (n + 1) (acc ++ [c]) (by omega)

/-- Wrapping keeps the lines of exactly the files with short lines. -/
theorem lines_wrap_iff (k : Nat) (hk : 0 < k) (s : Bytes) :
    lines (wrap k s) = lines s ↔ Short k s :=
  linesGo_wrapGo_iff k s 0 [] hk

end TextFile
