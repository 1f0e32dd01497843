import CLIos.Core.Shell

/-!
# What the console task publishes

A read that finds the line buffer empty is handled right: `index` never passes
the read cursor, so every byte is read before its cell is written
(`onRead_fresh`).  A read that starts inside a line (`0 < index`) overwrites
the kept bytes with the new ones and then writes each of them `index` cells
ahead of where it is read, so the read repeats its own first `index` bytes
(`onRead_carry`):

* an end of line among those first bytes publishes a line that contains it,
* an end of line further on is overwritten before it is read, and only the last
  cell of a full read, which is never written, can still close the line.

The last section says exactly for which reads the published lines are the typed ones.
-/

namespace CLIos

open CMem Runs Text

namespace Shell

/-! ## One byte -/

theorem onByte_char (s : Shell) {i : Nat} {c : UInt8} (hload : s.bufferInput.load i = some c)
    (hc : isEol c = false) (hidx : s.index < 63) :
    ∃ input, s.bufferInput.store s.index c = some input ∧
      s.onByte i = some { s with bufferInput := input, index := s.index + 1 } := by
  obtain ⟨input, hst⟩ := s.bufferInput.store_eq_some s.index c (show s.index < 64 by omega)
  refine ⟨input, hst, ?_⟩
  simp [onByte, hload, hc, hidx, hst]

theorem onByte_full (s : Shell) {i : Nat} {c : UInt8} (hload : s.bufferInput.load i = some c)
    (hc : isEol c = false) (hidx : 63 ≤ s.index) : s.onByte i = some s := by
  have : ¬ s.index < 63 := by omega
  simp [onByte, hload, hc, this]

theorem onByte_eol_empty (s : Shell) {i : Nat} {c : UInt8} (hload : s.bufferInput.load i = some c)
    (hc : isEol c = true) (hidx : s.index = 0) : s.onByte i = some s := by
  simp [onByte, hload, hc, hidx]

theorem publish_eq_some (s : Shell) (hidx : s.index ≤ 63) :
    ∃ s', s.publish = some s' ∧ s.bufferInput.store s.index 0 = some s'.bufferInput ∧
      s'.index = s.index ∧ s'.published = s.published ++ [s.bufferInput.first s.index] := by
  have hlt : s.index < 64 := by omega
  obtain ⟨input, hst⟩ := s.bufferInput.store_eq_some s.index 0 hlt
  have hfirst : input.first s.index = s.bufferInput.first s.index :=
    CArray.first_store_of_le hst (Nat.le_refl _)
  have hlen : (s.bufferInput.first s.index).length = s.index :=
    CArray.length_first _ _ (Nat.le_of_lt hlt)
  obtain ⟨copied, hcp⟩ := (CArray.memcpy_eq_some_iff (s.bufferPerline (!s.activeIndex)) 0
    (s.bufferInput.first s.index)).mpr (show 0 + _ ≤ 64 by rw [hlen]; omega)
  obtain ⟨row, hrow⟩ := copied.store_eq_some s.index 0 hlt
  have hcopied : row.first s.index = s.bufferInput.first s.index := by
    have h := CArray.first_memcpy hcp
    rw [hlen, Nat.zero_add, CArray.first_zero, List.nil_append] at h
    rw [CArray.first_store_of_le hrow (Nat.le_refl _), h]
  -- the clamp of `index` is never taken
  have hclamp : ¬ 64 ≤ s.index := by omega
  refine ⟨{ s with
    bufferInput := input
    bufferPerline := fun i => if i = !s.activeIndex then row else s.bufferPerline i
    bufferPerlineLen := fun i => if i = !s.activeIndex then s.index else s.bufferPerlineLen i
    activeIndex := !s.activeIndex
    published := s.published ++ [row.first s.index] }, ?_, hst, rfl, ?_⟩
  · simp only [publish, hst, hclamp, hfirst, hcp, hrow, Option.bind_some, if_false]
  · simp only [hcopied]

theorem onByte_eol (s : Shell) {i : Nat} {c : UInt8} (hload : s.bufferInput.load i = some c)
    (hc : isEol c = true) (hpos : 0 < s.index) (hidx : s.index ≤ 63) :
    ∃ s', s.onByte i = some s' ∧ s'.index = 0 ∧
      s.bufferInput.store s.index 0 = some s'.bufferInput ∧
      s'.published = s.published ++ [s.bufferInput.first s.index] := by
  obtain ⟨s₁, h₁, hst, -, hpub⟩ := s.publish_eq_some hidx
  refine ⟨quitKey c { s₁ with index := 0 }, ?_, ?_, ?_, ?_⟩
  · simp [onByte, hload, hc, hpos, h₁]
  · unfold quitKey; split <;> rfl
  · unfold quitKey; split <;> exact hst
  · unfold quitKey; split <;> exact hpub

/-- Every round is defined and keeps `index` below 64; lines are only added. -/
theorem onByte_total (s : Shell) (i : Nat) (hi : i < 64) (hidx : s.index ≤ 63) :
    ∃ s', s.onByte i = some s' ∧ s'.index ≤ 63 ∧ s.published <+: s'.published := by
  obtain ⟨c, hload⟩ := s.bufferInput.load_eq_some i hi
  cases hc : isEol c with
  | true =>
    rcases Nat.eq_zero_or_pos s.index with h0 | hpos
    · exact ⟨s, s.onByte_eol_empty hload hc h0, hidx, List.prefix_rfl⟩
    · obtain ⟨s', h, h0, -, hpub⟩ := s.onByte_eol hload hc hpos hidx
      exact ⟨s', h, by omega, hpub ▸ List.prefix_append _ _⟩
  | false =>
    rcases Nat.lt_or_ge s.index 63 with hlt | hge
    · obtain ⟨input, -, h⟩ := s.onByte_char hload hc hlt
      exact ⟨_, h, hlt, List.prefix_rfl⟩
    · exact ⟨s, s.onByte_full hload hc hge, hidx, List.prefix_rfl⟩

theorem onBytes_succ (s : Shell) (m : Nat) :
    s.onBytes (m + 1) = (s.onBytes m).bind fun s => s.onByte m := by
  unfold onBytes
  rw [List.range_succ, List.foldlM_append]
  cases List.foldlM onByte s (List.range m) with
  | none => rfl
  | some s₁ =>
    show List.foldlM onByte s₁ [m] = s₁.onByte m
    rw [List.foldlM_cons]
    cases s₁.onByte m <;> rfl

theorem onBytes_step {s s₁ s₂ : Shell} {m : Nat} (h₁ : s.onBytes m = some s₁)
    (h₂ : s₁.onByte m = some s₂) : s.onBytes (m + 1) = some s₂ := by
  rw [onBytes_succ, h₁]
  exact h₂

/-- What a part of the rounds has published stays published. -/
theorem onBytes_total (s : Shell) (hidx : s.index ≤ 63) (n : Nat) (hn : n ≤ 64) :
    ∃ s', s.onBytes n = some s' ∧ s'.index ≤ 63 ∧ s.published <+: s'.published ∧
      ∀ m s₁, m ≤ n → s.onBytes m = some s₁ → s₁.published <+: s'.published := by
  induction n with
  | zero =>
    refine ⟨s, rfl, hidx, List.prefix_rfl, fun m s₁ hm h => ?_⟩
    obtain rfl : m = 0 := by omega
    rw [← Option.some.inj h]
  | succ n ih =>
    obtain ⟨s₁, h₁, hidx₁, hp₁, hall⟩ := ih (by omega)
    obtain ⟨s₂, h₂, hidx₂, hp₂⟩ := s₁.onByte_total n (by omega) hidx₁
    refine ⟨s₂, onBytes_step h₁ h₂, hidx₂, hp₁.trans hp₂, fun m s₃ hm h => ?_⟩
    rcases Nat.lt_or_ge m (n + 1) with hlt | hge
    · exact (hall m s₃ (by omega) h).trans hp₂
    · obtain rfl : m = n + 1 := by omega
      rw [← Option.some.inj ((onBytes_step h₁ h₂).symm.trans h)]

/-- A read fits the buffer; its bytes are there before the first of them is looked at. -/
theorem onRead_eq (s : Shell) (r : UartRead) :
    ∃ input, s.bufferInput.memcpy 0 r.data = some input ∧
      s.onRead r = onBytes { s with bufferInput := input } r.data.length := by
  have hlen := r.length_data_le
  obtain ⟨input, hcp⟩ := (CArray.memcpy_eq_some_iff s.bufferInput 0 r.data).mpr
    (show 0 + r.data.length ≤ 64 by omega)
  exact ⟨input, hcp, by rw [onRead, hcp, Option.bind_some]⟩

theorem onRead_total (s : Shell) (r : UartRead) (hidx : s.index ≤ 63) :
    ∃ s', s.onRead r = some s' ∧ s'.index ≤ 63 ∧ s.published <+: s'.published := by
  obtain ⟨input, -, hread⟩ := s.onRead_eq r
  obtain ⟨s', h', hidx', hp, -⟩ :=
    onBytes_total { s with bufferInput := input } hidx _ r.length_data_le
  exact ⟨s', hread.trans h', hidx', hp⟩

/-! ## A read that starts a line -/

/-- After `m` bytes of `w`, the line buffer was empty before them: it holds the
unfinished run, and the bytes not read yet are still in their cells. -/
structure Fresh (base : List (List UInt8)) (w : List UInt8) (m : Nat) (s : Shell) : Prop where
  index : s.index = min 63 (openRun isEol (w.take m)).length
  kept : s.bufferInput.first s.index = (openRun isEol (w.take m)).take 63
  ahead : ∀ j, m ≤ j → j < w.length → s.bufferInput.load j = w[j]?
  published : s.published = base ++ typedLines (w.take m)

theorem length_openRun_take_le (w : List UInt8) (m : Nat) :
    (openRun isEol (w.take m)).length ≤ m := by
  induction m with
  | zero => simp
  | succ m ih =>
    rcases Nat.lt_or_ge m w.length with hm | hm
    · rw [List.take_add_one, List.getElem?_eq_getElem hm, Option.toList_some, openRun_concat]
      split
      · simp
      · simp only [List.length_append, List.length_singleton]; omega
    · rw [List.take_of_length_le (by omega)] at ih ⊢
      omega

theorem typedLines_concat (l : List UInt8) (c : UInt8) :
    typedLines (l ++ [c]) = typedLines l ++
      (if isEol c = true ∧ openRun isEol l ≠ [] then [(openRun isEol l).take 63] else []) := by
  unfold typedLines
  cases hc : isEol c with
  | true =>
    rw [closedRuns_concat_sep l hc, List.map_append]
    by_cases h : openRun isEol l = [] <;> simp [h]
  | false =>
    rw [closedRuns_concat_not_sep l hc]
    simp

theorem Fresh.load {base : List (List UInt8)} {w : List UInt8} {m : Nat} {s : Shell}
    (h : Fresh base w m s) (hm : m < w.length) : s.bufferInput.load m = some w[m] := by
  rw [h.ahead m (Nat.le_refl m) hm, List.getElem?_eq_getElem hm]

theorem take_succ_eq (w : List UInt8) {m : Nat} (hm : m < w.length) :
    w.take (m + 1) = w.take m ++ [w[m]] := by
  rw [List.take_add_one, List.getElem?_eq_getElem hm, Option.toList_some]

/-- An end of line publishes the run before it, unless that is empty. -/
theorem Fresh.stepEol {base : List (List UInt8)} {w : List UInt8} {m : Nat} {s : Shell}
    (h : Fresh base w m s) (hm : m < w.length) (hc : isEol w[m] = true) :
    ∃ s', s.onByte m = some s' ∧ Fresh base w (m + 1) s' := by
  have hle := length_openRun_take_le w m
  have hidx := h.index
  have hopen : openRun isEol (w.take (m + 1)) = [] := by
    rw [take_succ_eq w hm, openRun_concat, hc]
    rfl
  rcases Nat.eq_zero_or_pos s.index with h0 | hpos
  · have hnil : openRun isEol (w.take m) = [] := List.length_eq_zero_iff.mp (by omega)
    refine ⟨s, s.onByte_eol_empty (h.load hm) hc h0, ?_, ?_, ?_, ?_⟩
    · rw [hopen, h0]; rfl
    · rw [hopen, h0]; rfl
    · exact fun j hj => h.ahead j (by omega)
    · rw [take_succ_eq w hm, typedLines_concat, h.published]
      simp [hnil]
  · obtain ⟨s', h', h0, hst, hpub⟩ := s.onByte_eol (h.load hm) hc hpos (by omega)
    have hne : openRun isEol (w.take m) ≠ [] := by
      intro hnil
      rw [hnil] at hidx
      simp at hidx
      omega
    refine ⟨s', h', ?_, ?_, ?_, ?_⟩
    · rw [hopen, h0]; rfl
    · rw [hopen, h0]; rfl
    · intro j hj hjn
      rw [CArray.load_store_ne hst (by omega), h.ahead j (by omega) hjn]
    · rw [take_succ_eq w hm, typedLines_concat, hpub, h.published, h.kept]
      simp [hc, hne]

/-- Another byte goes into its own cell or one before it, or is dropped. -/
theorem Fresh.stepChar {base : List (List UInt8)} {w : List UInt8} {m : Nat} {s : Shell}
    (h : Fresh base w m s) (hm : m < w.length) (hc : isEol w[m] = false) :
    ∃ s', s.onByte m = some s' ∧ Fresh base w (m + 1) s' := by
  have hle := length_openRun_take_le w m
  have hidx := h.index
  have hopen : openRun isEol (w.take (m + 1)) = openRun isEol (w.take m) ++ [w[m]] := by
    rw [take_succ_eq w hm, openRun_concat, hc]
    rfl
  have hlines : typedLines (w.take (m + 1)) = typedLines (w.take m) := by
    rw [take_succ_eq w hm, typedLines_concat, hc]
    simp
  rcases Nat.lt_or_ge s.index 63 with hlt | hge
  · obtain ⟨input, hst, h'⟩ := s.onByte_char (h.load hm) hc hlt
    refine ⟨_, h', ?_, ?_, ?_, ?_⟩
    · rw [hopen, List.length_append, List.length_singleton]
      show s.index + 1 = _
      omega
    · show input.first (s.index + 1) = _
      have hlen : (openRun isEol (w.take m)).length < 63 := by omega
      have hshort : (openRun isEol (w.take m) ++ [w[m]]).length ≤ 63 := by
        rw [List.length_append, List.length_singleton]
        exact hlen
      rw [CArray.first_store_succ hst, h.kept, hopen, List.take_of_length_le hshort]
      congr 1
      exact List.take_of_length_le (Nat.le_of_lt hlen)
    · intro j hj hjn
      show input.load j = _
      rw [CArray.load_store_ne hst (by omega), h.ahead j (by omega) hjn]
    · rw [hlines]
      exact h.published
  · refine ⟨s, s.onByte_full (h.load hm) hc hge, ?_, ?_, ?_, ?_⟩
    · rw [hopen, List.length_append, List.length_singleton]
      omega
    · rw [hopen, h.kept, List.take_append_of_le_length (by omega)]
    · exact fun j hj => h.ahead j (by omega)
    · rw [hlines, h.published]

theorem Fresh.step {base : List (List UInt8)} {w : List UInt8} {m : Nat} {s : Shell}
    (h : Fresh base w m s) (hm : m < w.length) :
    ∃ s', s.onByte m = some s' ∧ Fresh base w (m + 1) s' := by
  by_cases hc : isEol w[m] = true
  · exact h.stepEol hm hc
  · exact h.stepChar hm (Bool.eq_false_iff.mpr hc)

theorem onRead_fresh (s : Shell) (r : UartRead) (h0 : s.index = 0) :
    ∃ s', s.onRead r = some s' ∧ s'.index = min 63 (openRun isEol r.data).length ∧
      s'.published = s.published ++ typedLines r.data := by
  obtain ⟨input, hcp, hread⟩ := s.onRead_eq r
  have hstart : Fresh s.published r.data 0 { s with bufferInput := input } := by
    refine ⟨?_, ?_, ?_, ?_⟩
    · simpa using h0
    · simp [h0]
    · intro j _ hj
      show input.load j = _
      rw [CArray.load_memcpy_zero hcp, if_pos hj]
    · simp [typedLines]
  have hall : ∀ m, m ≤ r.data.length →
      ∃ s', onBytes { s with bufferInput := input } m = some s' ∧ Fresh s.published r.data m s' := by
    intro m
    induction m with
    | zero => exact fun _ => ⟨_, rfl, hstart⟩
    | succ m ih =>
      intro hm
      obtain ⟨s₁, h₁, hf₁⟩ := ih (by omega)
      obtain ⟨s₂, h₂, hf₂⟩ := hf₁.step (by omega)
      exact ⟨s₂, onBytes_step h₁ h₂, hf₂⟩
  obtain ⟨s', h', hf⟩ := hall r.data.length (Nat.le_refl _)
  refine ⟨s', hread.trans h', ?_, ?_⟩
  · rw [hf.index, List.take_length]
  · rw [hf.published, List.take_length]

/-! ## A read that starts inside a line -/

/-- After `m` bytes of `w`, with `k` bytes kept from before: the cells hold the
first `k` bytes of `w` again and again, as far as `index`. -/
structure Carry (base : List (List UInt8)) (w : List UInt8) (k m : Nat) (s : Shell) : Prop where
  index : s.index = min 63 (k + m)
  cells : ∀ i, i < s.index → (i < k → i < w.length) → s.bufferInput.load i = w[i % k]?
  last : ∀ i, 63 ≤ i → i < w.length → s.bufferInput.load i = w[i]?
  published : s.published = base

theorem Carry.step {base : List (List UInt8)} {w : List UInt8} {k m : Nat} {s : Shell}
    (h : Carry base w k m s) (hk : 0 < k) (hm : m < w.length) (hm63 : m < 63) (c : UInt8)
    (hcm : w[m % k]? = some c) (hc : isEol c = false) :
    ∃ s', s.onByte m = some s' ∧ Carry base w k (m + 1) s' := by
  have hidx := h.index
  have hload : s.bufferInput.load m = some c := by
    rw [h.cells m (by omega) (fun _ => hm), hcm]
  rcases Nat.lt_or_ge s.index 63 with hlt | hge
  · obtain ⟨input, hst, h'⟩ := s.onByte_char hload hc hlt
    refine ⟨_, h', ?_, ?_, ?_, h.published⟩
    · show s.index + 1 = _
      omega
    · intro i hi hik
      show input.load i = _
      rcases Nat.lt_or_ge i s.index with hi' | hi'
      · rw [CArray.load_store_ne hst (by omega), h.cells i hi' hik]
      · -- the new cell is `k` ahead of the byte just read
        obtain rfl : i = s.index := Nat.le_antisymm (Nat.le_of_lt_succ hi) hi'
        have hmod : s.index % k = m % k := by
          rw [show s.index = m + k by omega, Nat.add_mod_right]
        rw [CArray.load_store_self hst, hmod, hcm]
    · intro i hi hiw
      show input.load i = _
      rw [CArray.load_store_ne hst (by omega), h.last i hi hiw]
  · exact ⟨s, s.onByte_full hload hc hge, by omega, h.cells, h.last, h.published⟩

/-- What a read leaves in `bufferInput` before its first byte is looked at. -/
theorem Carry.start (s : Shell) (r : UartRead) (hpos : 0 < s.index) (hidx : s.index ≤ 63) :
    ∃ input, s.onRead r = onBytes { s with bufferInput := input } r.data.length ∧
      Carry s.published r.data s.index 0 { s with bufferInput := input } := by
  obtain ⟨input, hcp, hread⟩ := s.onRead_eq r
  refine ⟨input, hread, ?_, ?_, ?_, rfl⟩
  · show s.index = _
    omega
  · intro i hi hik
    show input.load i = _
    have hi : i < s.index := hi
    rw [CArray.load_memcpy_zero hcp, if_pos (hik hi), Nat.mod_eq_of_lt hi]
  · intro i _ hiw
    show input.load i = _
    rw [CArray.load_memcpy_zero hcp, if_pos hiw]

/-- As long as the first `k` bytes hold no end of line, no end of line is seen. -/
theorem Carry.run {base : List (List UInt8)} {w : List UInt8} {k : Nat} {s : Shell}
    (h : Carry base w k 0 s) (hk : 0 < k) (m : Nat) (hm : m ≤ w.length) (hm63 : m ≤ 63)
    (hw : ∀ i c, i < m → i < k → w[i]? = some c → isEol c = false) :
    ∃ s', s.onBytes m = some s' ∧ Carry base w k m s' := by
  induction m with
  | zero => exact ⟨s, rfl, h⟩
  | succ m ih =>
    obtain ⟨s₁, h₁, hc₁⟩ := ih (by omega) (by omega) fun i c hi => hw i c (by omega)
    have hle : m % k ≤ m := Nat.mod_le m k
    have hlt : m % k < w.length := by omega
    have hget : w[m % k]? = some w[m % k] := List.getElem?_eq_getElem hlt
    obtain ⟨s₂, h₂, hc₂⟩ := hc₁.step hk (by omega) (by omega) _ hget
      (hw (m % k) _ (by omega) (Nat.mod_lt m hk) hget)
    exact ⟨s₂, onBytes_step h₁ h₂, hc₂⟩

end Shell

/-- The line a full read publishes when it starts with `k` bytes kept: its own
first `k` bytes, repeated up to 63. -/
def repeated (k : Nat) (w : List UInt8) : List UInt8 :=
  (List.range 63).map fun i => w.getD (i % k) 0

/-- The read ends the line in its last cell, the only one that is not overwritten. -/
def EndsFull (w : List UInt8) : Prop := w.length = 64 ∧ ∃ c, w[63]? = some c ∧ isEol c = true

instance (w : List UInt8) : Decidable (EndsFull w) :=
  inferInstanceAs (Decidable (_ ∧ ∃ c, c ∈ w[63]? ∧ _))

namespace Shell

/-- A read starting inside a line whose first `index` bytes hold no end of line. -/
theorem onRead_carry (s : Shell) (r : UartRead) (hpos : 0 < s.index) (hidx : s.index ≤ 63)
    (hw : ∀ i c, i < s.index → r.data[i]? = some c → isEol c = false) :
    ∃ s', s.onRead r = some s' ∧
      (EndsFull r.data → s'.index = 0 ∧
        s'.published = s.published ++ [repeated s.index r.data]) ∧
      (¬ EndsFull r.data → s'.index = min 63 (s.index + r.data.length) ∧
        s'.published = s.published) := by
  have hlen := r.length_data_le
  obtain ⟨input, hread, hstart⟩ := Carry.start s r hpos hidx
  rcases Nat.lt_or_ge r.data.length 64 with hlt | hge
  · have hnot : ¬ EndsFull r.data := fun h => by have := h.1; omega
    obtain ⟨s', h', hc⟩ := hstart.run hpos r.data.length (Nat.le_refl _) (by omega)
      fun i c _ => hw i c
    exact ⟨s', hread.trans h', fun h => absurd h hnot, fun _ => ⟨hc.index, hc.published⟩⟩
  · have h64 : r.data.length = 64 := by omega
    obtain ⟨s₁, h₁, hc⟩ := hstart.run hpos 63 (by omega) (Nat.le_refl _) fun i c _ => hw i c
    have hidx₁ : s₁.index = 63 := by rw [hc.index]; omega
    obtain ⟨c, hget⟩ : ∃ c, r.data[63]? = some c := ⟨_, List.getElem?_eq_getElem (by omega)⟩
    have hload := (hc.last 63 (Nat.le_refl _) (by omega)).trans hget
    cases heol : isEol c with
    | true =>
      have hfull : EndsFull r.data := ⟨h64, _, hget, heol⟩
      obtain ⟨s₂, h₂, h0, -, hpub⟩ := s₁.onByte_eol hload heol (by omega) (by omega)
      have hline : s₁.bufferInput.first s₁.index = repeated s.index r.data := by
        rw [hidx₁]
        ext i : 1
        rcases Nat.lt_or_ge i 63 with hi | hi
        · have hmod := Nat.mod_lt i hpos
          rw [CArray.getElem?_first _ _ _ hi, hc.cells i (by omega) (by omega)]
          simp [repeated, hi, List.getElem?_eq_getElem (show i % s.index < r.data.length by omega)]
        · rw [List.getElem?_eq_none (by rw [CArray.length_first _ _ (show 63 ≤ 64 by omega)]; exact hi),
            List.getElem?_eq_none (by simpa [repeated] using hi)]
      refine ⟨s₂, ?_, fun _ => ⟨h0, ?_⟩, fun h => absurd hfull h⟩
      · rw [hread, h64]
        exact onBytes_step h₁ h₂
      · rw [hpub, hc.published, hline]
    | false =>
      have hnot : ¬ EndsFull r.data := by
        rintro ⟨-, d, hd, heol'⟩
        rw [Option.some.inj (hget.symm.trans hd), heol'] at heol
        cases heol
      refine ⟨s₁, ?_, fun h => absurd h hnot, fun _ => ⟨?_, hc.published⟩⟩
      · rw [hread, h64]
        exact onBytes_step h₁ (s₁.onByte_full hload heol (by omega))
      · omega

/-- An end of line among the first `index` bytes of a read that starts inside a
line ends up in a published line. -/
theorem onRead_torn (s : Shell) (r : UartRead) (hidx : s.index ≤ 63) (j : Nat) (c : UInt8)
    (hj : j < s.index) (hcj : r.data[j]? = some c) (hc : isEol c = true)
    (hw : ∀ i d, i < j → r.data[i]? = some d → isEol d = false) :
    ∃ s', s.onRead r = some s' ∧ ∃ l ∈ s'.published, ∃ d ∈ l, isEol d = true := by
  have hlen := r.length_data_le
  have hjn : j < r.data.length := (List.getElem?_eq_some_iff.mp hcj).1
  obtain ⟨input, hread, hstart⟩ := Carry.start s r (by omega) hidx
  obtain ⟨s', h', -, -, hall⟩ := onBytes_total { s with bufferInput := input } hidx _ hlen
  obtain ⟨s₁, h₁, hc₁⟩ := hstart.run (by omega) j (by omega) (by omega) fun i d hi _ => hw i d hi
  have hidx₁ := hc₁.index
  have hload : s₁.bufferInput.load j = some c := by
    rw [hc₁.cells j (by omega) (fun _ => hjn), Nat.mod_eq_of_lt hj, hcj]
  obtain ⟨s₂, h₂, -, -, hpub⟩ := s₁.onByte_eol hload hc (by omega) (by omega)
  have hpre := hall (j + 1) s₂ hjn (onBytes_step h₁ h₂)
  refine ⟨s', hread.trans h', s₁.bufferInput.first s₁.index, hpre.subset ?_, c, ?_, hc⟩
  · rw [hpub]
    simp
  · exact (CArray.mem_first_iff _ _ _).mpr ⟨j, by omega, hload⟩

end Shell

/-! ## The typed lines, read by read -/

theorem not_eol_of_mem_typedLines (stream : List UInt8) :
    ∀ l ∈ typedLines stream, ∀ c ∈ l, isEol c = false := by
  intro l hl c hc
  obtain ⟨r, hr, rfl⟩ := List.mem_map.mp hl
  exact not_sep_of_mem_closedRuns stream r hr c (List.mem_of_mem_take hc)

theorem typedLines_mono (stream w : List UInt8) :
    typedLines stream <+: typedLines (stream ++ w) :=
  (closedRuns_mono stream w).map _

theorem typedLines_append_not_eol (stream w : List UInt8) (hw : ∀ c ∈ w, isEol c = false) :
    typedLines (stream ++ w) = typedLines stream := by
  unfold typedLines
  rw [closedRuns_append_not_sep stream w hw]

theorem typedLines_append_of_openRun_nil (stream w : List UInt8)
    (h : openRun isEol stream = []) :
    typedLines (stream ++ w) = typedLines stream ++ typedLines w := by
  unfold typedLines
  rw [(closedRuns_append_of_openRun_nil stream w h).1, List.map_append]

/-- A read whose first end of line is `c`, after the bytes `u`. -/
theorem typedLines_append_eol (stream u v : List UInt8) (c : UInt8)
    (hu : ∀ d ∈ u, isEol d = false) (hc : isEol c = true)
    (hne : openRun isEol stream ++ u ≠ []) :
    typedLines (stream ++ (u ++ c :: v)) =
      typedLines stream ++ [(openRun isEol stream ++ u).take 63] ++ typedLines v := by
  unfold typedLines
  rw [← List.append_assoc, closedRuns_append_cons _ v hc, closedRuns_concat_sep _ hc,
    closedRuns_append_not_sep stream u hu, openRun_append_not_sep stream u hu, if_neg hne]
  simp

/-! ## Which reads keep the lines -/

/-- A full read that only ends lines in its last cells and happens to repeat
the bytes already typed: the one way a torn line is still published right. -/
def Refill (kept w : List UInt8) : Prop :=
  ∃ u z, w = u ++ z ∧ (∀ c ∈ u, isEol c = false) ∧ z ≠ [] ∧ (∀ c ∈ z, isEol c = true) ∧
    w.length = 64 ∧ (kept ++ u).take 63 = repeated (min 63 kept.length) w

/-- The read `w` does not tear the line begun by `kept`: nothing is begun, or
`w` does not end it, or it is a `Refill`. -/
def Untorn (kept w : List UInt8) : Prop :=
  kept = [] ∨ (∀ c ∈ w, isEol c = false) ∨ Refill kept w

/-- `index` and the published lines are as the stream so far asks for. -/
structure InSync (stream : List UInt8) (s : Shell) : Prop where
  index : s.index = min 63 (openRun isEol stream).length
  published : s.published = typedLines stream

/-- The published lines can never be the typed ones again. -/
inductive Lost (stream : List UInt8) (s : Shell) : Prop
  | eolInside (l : List UInt8) (c : UInt8) (hl : l ∈ s.published) (hc : c ∈ l)
      (heol : isEol c = true)
  | differ (j : Nat) (l l' : List UInt8) (hl : s.published[j]? = some l)
      (hl' : (typedLines stream)[j]? = some l') (hne : l ≠ l')
  | behind (hlt : s.published.length < (typedLines stream).length)
      (hidx : s.index = 0 → openRun isEol stream = [])

theorem Lost.published_ne {stream : List UInt8} {s : Shell} (h : Lost stream s) :
    s.published ≠ typedLines stream := by
  intro heq
  cases h with
  | eolInside l c hl hc heol =>
    rw [heq] at hl
    rw [not_eol_of_mem_typedLines stream l hl c hc] at heol
    cases heol
  | differ j l l' hl hl' hne =>
    rw [heq, hl'] at hl
    exact hne (Option.some.inj hl).symm
  | behind hlt => rw [heq] at hlt; exact Nat.lt_irrefl _ hlt

/-- The bytes before the first end of line reach past those kept. -/
theorem not_eol_of_lt_length {u v : List UInt8} {k : Nat} (hk : k ≤ u.length)
    (hu : ∀ d ∈ u, isEol d = false) (i : Nat) (d : UInt8) (hi : i < k)
    (hd : (u ++ v)[i]? = some d) : isEol d = false := by
  rw [List.getElem?_append_left (by omega)] at hd
  exact hu d (List.mem_of_getElem? hd)

theorem not_endsFull {w : List UInt8} (hw : ∀ c ∈ w, isEol c = false) : ¬ EndsFull w := by
  rintro ⟨-, c, hc, heol⟩
  rw [hw c (List.mem_of_getElem? hc)] at heol
  cases heol

theorem endsFull_iff (u v : List UInt8) (c : UInt8) (hc : isEol c = true)
    (h64 : (u ++ c :: v).length = 64) : EndsFull (u ++ c :: v) ↔ openRun isEol v = [] := by
  have hlen : (u ++ c :: v).length - 1 = 63 := by omega
  have hlast : (u ++ c :: v)[63]? = (c :: v).getLast? := by
    rw [← hlen, ← List.getLast?_eq_getElem?, List.getLast?_append]
    cases h : (c :: v).getLast? with
    | none => simp at h
    | some d => rfl
  unfold EndsFull
  rw [hlast]
  induction v using List.reverseRecOn with
  | nil => simp [hc, h64]
  | append_singleton v d _ =>
    rw [openRun_concat, ← List.cons_append, List.getLast?_concat]
    cases hd : isEol d <;> simp [hd, h64]

/-- The first bytes of a `Refill` are no ends of line. -/
theorem Refill.le_length {kept u v : List UInt8} {c : UInt8} (hk : ∀ d ∈ kept, isEol d = false)
    (hu : ∀ d ∈ u, isEol d = false) (hc : isEol c = true)
    (heq : (kept ++ u).take 63 = repeated (min 63 kept.length) (u ++ c :: v)) :
    min 63 kept.length ≤ u.length := by
  by_contra hlt
  have hmod : u.length % min 63 kept.length = u.length := Nat.mod_eq_of_lt (by omega)
  have hmem : c ∈ repeated (min 63 kept.length) (u ++ c :: v) := by
    refine List.mem_map.mpr ⟨u.length, List.mem_range.mpr (by omega), ?_⟩
    rw [hmod]
    simp
  rw [← heq] at hmem
  have hfalse : isEol c = false := by
    rcases List.mem_append.mp (List.mem_of_mem_take hmem) with h | h
    · exact hk c h
    · exact hu c h
  rw [hc] at hfalse
  cases hfalse

/-! ## One read -/

theorem InSync.onRead {stream : List UInt8} {s : Shell} {r : UartRead} (h : InSync stream s)
    (hr : Untorn (openRun isEol stream) r.data) :
    ∃ s', s.onRead r = some s' ∧ InSync (stream ++ r.data) s' := by
  have hidx := h.index
  by_cases hnil : openRun isEol stream = []
  · have h0 : s.index = 0 := by rw [hidx, hnil]; rfl
    obtain ⟨s', h', hi, hp⟩ := s.onRead_fresh r h0
    refine ⟨s', h', ?_, ?_⟩
    · rw [hi, (closedRuns_append_of_openRun_nil stream r.data hnil).2]
    · rw [hp, h.published, typedLines_append_of_openRun_nil stream r.data hnil]
  · have hpos : 0 < (openRun isEol stream).length := List.length_pos_iff.mpr hnil
    rcases hr with hr | hr | hr
    · exact absurd hr hnil
    · obtain ⟨s', h', -, hp⟩ := s.onRead_carry r (by omega) (by omega)
        fun i c _ hi => hr c (List.mem_of_getElem? hi)
      obtain ⟨hi, hp⟩ := hp (not_endsFull hr)
      refine ⟨s', h', ?_, ?_⟩
      · rw [hi, openRun_append_not_sep stream r.data hr, List.length_append, hidx]
        omega
      · rw [hp, h.published, typedLines_append_not_eol stream r.data hr]
    · obtain ⟨u, z, hw, hu, hz, hzeol, h64, heq⟩ := hr
      obtain ⟨c, v, rfl⟩ := List.exists_cons_of_ne_nil hz
      have hc := hzeol c List.mem_cons_self
      obtain ⟨hv, hvo⟩ := runs_of_all_sep v fun d hd => hzeol d (List.mem_cons_of_mem c hd)
      rw [hw] at h64 heq
      have hle := Refill.le_length (not_sep_of_mem_openRun stream) hu hc heq
      obtain ⟨s', h', hfull, -⟩ := s.onRead_carry r (by omega) (by omega) fun i d hi hd =>
        not_eol_of_lt_length (hidx ▸ hle) hu i d hi (hw ▸ hd)
      obtain ⟨hi, hp⟩ := hfull (hw ▸ (endsFull_iff u v c hc h64).mpr hvo)
      refine ⟨s', h', ?_, ?_⟩
      · rw [hi, hw, ← List.append_assoc, openRun_append_cons _ v hc, hvo]
        rfl
      · have hne : openRun isEol stream ++ u ≠ [] := by simp [hnil]
        rw [hp, hw, typedLines_append_eol stream u v c hu hc hne, h.published, heq, ← hidx,
          show typedLines v = [] from congrArg (List.map _) hv, List.append_nil]

/-- The first end of line of a read lies among the bytes that stand for the kept ones. -/
theorem lost_of_torn {s s' : Shell} {r : UartRead} (h' : s.onRead r = some s')
    (hidx : s.index ≤ 63) {u v : List UInt8} {c : UInt8} (hw : r.data = u ++ c :: v)
    (hu : ∀ d ∈ u, isEol d = false) (hc : isEol c = true) (hlt : u.length < s.index)
    (stream : List UInt8) : Lost stream s' := by
  have hget : r.data[u.length]? = some c := by rw [hw]; simp
  obtain ⟨t, ht, l, hl, d, hd, heol⟩ := s.onRead_torn r hidx u.length c hlt hget hc
    fun i d hi hd => not_eol_of_lt_length (Nat.le_refl _) hu i d hi (hw ▸ hd)
  obtain rfl : t = s' := Option.some.inj (ht.symm.trans h')
  exact Lost.eolInside l d hl hd heol

/-- The ends of line of a read are all overwritten before they are looked at. -/
theorem lost_of_overwritten {s s' : Shell} {r : UartRead} (h' : s.onRead r = some s')
    (hpos : 0 < s.index) (hidx : s.index ≤ 63) {u v : List UInt8} {c : UInt8}
    (hw : r.data = u ++ c :: v) (hu : ∀ d ∈ u, isEol d = false) (hc : isEol c = true)
    (hge : s.index ≤ u.length) (hend : ¬ EndsFull r.data) (stream : List UInt8)
    (hne : openRun isEol stream ++ u ≠ [])
    (hle : s.published.length ≤ (typedLines stream).length) : Lost (stream ++ r.data) s' := by
  obtain ⟨t, ht, -, hopen⟩ := s.onRead_carry r hpos hidx fun i d hi hd =>
    not_eol_of_lt_length hge hu i d hi (hw ▸ hd)
  obtain rfl : t = s' := Option.some.inj (ht.symm.trans h')
  obtain ⟨hi, hp⟩ := hopen hend
  refine Lost.behind ?_ fun h0 => by omega
  rw [hp, hw, typedLines_append_eol stream u v c hu hc hne]
  simp only [List.length_append, List.length_singleton]
  omega

theorem InSync.lost {stream : List UInt8} {s : Shell} {r : UartRead} (h : InSync stream s)
    (hr : ¬ Untorn (openRun isEol stream) r.data) :
    ∃ s', s.onRead r = some s' ∧ s'.index ≤ 63 ∧ Lost (stream ++ r.data) s' := by
  have hidx := h.index
  obtain ⟨s', h', hidx', -⟩ := s.onRead_total r (by omega)
  refine ⟨s', h', hidx', ?_⟩
  have hnil : openRun isEol stream ≠ [] := fun hnil => hr (Or.inl hnil)
  have hpos : 0 < (openRun isEol stream).length := List.length_pos_iff.mpr hnil
  rcases first_sep (p := isEol) r.data with hw | ⟨u, c, v, hw, hu, hc⟩
  · exact absurd (Or.inr (Or.inl hw)) hr
  have hne : openRun isEol stream ++ u ≠ [] := by simp [hnil]
  have htyped := typedLines_append_eol stream u v c hu hc hne
  have hopen : openRun isEol (stream ++ (u ++ c :: v)) = openRun isEol v := by
    rw [← List.append_assoc, openRun_append_cons _ v hc]
  rcases Nat.lt_or_ge u.length s.index with hlt | hge
  · exact lost_of_torn h' (by omega) hw hu hc hlt _
  · obtain ⟨t, ht, hfull, -⟩ := s.onRead_carry r (by omega) (by omega) fun i d hi hd =>
      not_eol_of_lt_length hge hu i d hi (hw ▸ hd)
    obtain rfl : t = s' := Option.some.inj (ht.symm.trans h')
    by_cases hend : EndsFull r.data
    · obtain ⟨h0, hp⟩ := hfull hend
      have h64 : (u ++ c :: v).length = 64 := hw ▸ hend.1
      have hvo : openRun isEol v = [] := (endsFull_iff u v c hc h64).mp (hw ▸ hend)
      by_cases hline : (openRun isEol stream ++ u).take 63 = repeated s.index r.data
      · -- the line is right by chance, so another one is missing
        have hv : closedRuns isEol v ≠ [] := by
          intro hv
          have hz : ∀ d ∈ c :: v, isEol d = true := by
            intro d hd
            rcases List.mem_cons.mp hd with rfl | hd
            · exact hc
            · exact all_sep_of_closedRuns_nil v hv hvo d hd
          exact hr (Or.inr (Or.inr ⟨u, c :: v, hw, hu, by simp, hz, hend.1, hidx ▸ hline⟩))
        have hvpos : 0 < (typedLines v).length := by
          rw [typedLines, List.length_map]
          exact List.length_pos_iff.mpr hv
        refine Lost.behind ?_ fun _ => by rw [hw, hopen, hvo]
        rw [hp, hw, htyped, h.published]
        simp only [List.length_append, List.length_singleton]
        omega
      · refine Lost.differ s.published.length (repeated s.index r.data)
          ((openRun isEol stream ++ u).take 63) ?_ ?_ (Ne.symm hline)
        · rw [hp]
          simp
        · rw [hw, htyped, h.published]
          simp
    · exact lost_of_overwritten h' (by omega) (by omega) hw hu hc hge hend stream hne
        (Nat.le_of_eq (congrArg List.length h.published))

theorem Lost.onRead {stream : List UInt8} {s : Shell} {r : UartRead} (h : Lost stream s)
    (hidx : s.index ≤ 63) :
    ∃ s', s.onRead r = some s' ∧ s'.index ≤ 63 ∧ Lost (stream ++ r.data) s' := by
  obtain ⟨s', h', hidx', hpre⟩ := s.onRead_total r hidx
  refine ⟨s', h', hidx', ?_⟩
  cases h with
  | eolInside l c hl hc heol => exact Lost.eolInside l c (hpre.subset hl) hc heol
  | differ j l l' hl hl' hne =>
    obtain ⟨more, hmore⟩ := hpre
    obtain ⟨more', hmore'⟩ := typedLines_mono stream r.data
    have hj := (List.getElem?_eq_some_iff.mp hl).1
    have hj' := (List.getElem?_eq_some_iff.mp hl').1
    refine Lost.differ j l l' ?_ ?_ hne
    · rw [← hmore, List.getElem?_append_left hj, hl]
    · rw [← hmore', List.getElem?_append_left hj', hl']
  | behind hlt h0 =>
    rcases Nat.eq_zero_or_pos s.index with hz | hpos
    · obtain ⟨t, ht, hi, hp⟩ := s.onRead_fresh r hz
      obtain rfl : t = s' := Option.some.inj (ht.symm.trans h')
      have hnil := h0 hz
      refine Lost.behind ?_ fun ht0 => ?_
      · rw [hp, typedLines_append_of_openRun_nil stream r.data hnil, List.length_append,
          List.length_append]
        omega
      · rw [(closedRuns_append_of_openRun_nil stream r.data hnil).2]
        exact List.length_eq_zero_iff.mp (by omega)
    · rcases first_sep (p := isEol) r.data with hw | ⟨u, c, v, hw, hu, hc⟩
      · obtain ⟨t, ht, -, hp⟩ := s.onRead_carry r hpos hidx
          fun i c _ hi => hw c (List.mem_of_getElem? hi)
        obtain rfl : t = s' := Option.some.inj (ht.symm.trans h')
        obtain ⟨hi, hp⟩ := hp (not_endsFull hw)
        refine Lost.behind ?_ fun ht0 => by omega
        rw [hp, typedLines_append_not_eol stream r.data hw]
        exact hlt
      · rcases Nat.lt_or_ge u.length s.index with hshort | hge
        · exact lost_of_torn h' hidx hw hu hc hshort _
        · -- the read closes a typed line, and publishes at most one
          have hne : openRun isEol stream ++ u ≠ [] := by
            intro hnil
            have := (List.append_eq_nil_iff.mp hnil).2
            rw [this] at hge
            simp at hge
            omega
          have htyped := typedLines_append_eol stream u v c hu hc hne
          by_cases hend : EndsFull r.data
          · obtain ⟨t, ht, hfull, -⟩ := s.onRead_carry r hpos hidx fun i d hi hd =>
              not_eol_of_lt_length hge hu i d hi (hw ▸ hd)
            obtain rfl : t = s' := Option.some.inj (ht.symm.trans h')
            obtain ⟨-, hp⟩ := hfull hend
            have h64 : (u ++ c :: v).length = 64 := hw ▸ hend.1
            refine Lost.behind ?_ fun _ => ?_
            · rw [hp, hw, htyped]
              simp only [List.length_append, List.length_singleton]
              omega
            · rw [hw, ← List.append_assoc, openRun_append_cons _ v hc]
              exact (endsFull_iff u v c hc h64).mp (hw ▸ hend)
          · exact lost_of_overwritten h' hpos hidx hw hu hc hge hend stream hne (Nat.le_of_lt hlt)

/-! ## All reads -/

/-- After any reads the task is in step with the stream, or has lost it for good;
it is in step as long as no read tore a line. -/
theorem shellTask_run (stack : CArray UInt8 CHAR_BUFFER_SIZE) (reads : List UartRead) :
    ∃ s, (shellTask stack).run reads = some s ∧
      (((∀ pre r, pre ++ [r] <+: reads → Untorn (openRun isEol (received pre)) r.data) ∧
          InSync (received reads) s) ∨
        ((¬ ∀ pre r, pre ++ [r] <+: reads → Untorn (openRun isEol (received pre)) r.data) ∧
          s.index ≤ 63 ∧ Lost (received reads) s)) := by
  apply Machine.total_of_step
  · exact Or.inl ⟨fun pre r hp => absurd hp (not_concat_prefix_nil pre r), rfl, rfl⟩
  · intro reads s r hcase
    rw [received_concat]
    rcases hcase with ⟨hall, hsync⟩ | ⟨hnot, hidx, hlost⟩
    · by_cases hr : Untorn (openRun isEol (received reads)) r.data
      · obtain ⟨s', h', hsync'⟩ := hsync.onRead hr
        refine ⟨s', h', Or.inl ⟨fun pre r' hp => ?_, hsync'⟩⟩
        rcases concat_prefix_concat.mp hp with ⟨rfl, rfl⟩ | hp
        · exact hr
        · exact hall pre r' hp
      · obtain ⟨s', h', hidx', hlost'⟩ := hsync.lost hr
        exact ⟨s', h', Or.inr ⟨fun h => hr (h reads r List.prefix_rfl), hidx', hlost'⟩⟩
    · obtain ⟨s', h', hidx', hlost'⟩ := hlost.onRead (r := r) hidx
      refine ⟨s', h', Or.inr ⟨fun h => hnot fun pre r' hp => ?_, hidx', hlost'⟩⟩
      exact h pre r' (hp.trans (List.prefix_append reads [r]))

/-- **Which reads keep the lines.**  The published lines are the typed ones
exactly when no read tears a line. -/
theorem shell_lines_iff (stack : CArray UInt8 CHAR_BUFFER_SIZE) (reads : List UartRead) :
    (∃ s, (shellTask stack).run reads = some s ∧ s.published = typedLines (received reads)) ↔
      ∀ pre r, pre ++ [r] <+: reads → Untorn (openRun isEol (received pre)) r.data := by
  obtain ⟨s, hs, hcase⟩ := shellTask_run stack reads
  constructor
  · rintro ⟨s', hs', hp⟩
    obtain rfl : s = s' := Option.some.inj (hs.symm.trans hs')
    rcases hcase with ⟨hall, -⟩ | ⟨-, -, hlost⟩
    · exact hall
    · exact absurd hp hlost.published_ne
  · intro hall
    rcases hcase with ⟨-, hsync⟩ | ⟨hnot, -⟩
    · exact ⟨s, hs, hsync.published⟩
    · exact absurd hall hnot

/-- `ab` typed in two reads is published as a carriage return and `b`. -/
theorem shell_lines_torn :
    ¬ ∀ (stack : CArray UInt8 CHAR_BUFFER_SIZE) (reads : List UartRead),
      ∃ s, (shellTask stack).run reads = some s ∧ s.published = typedLines (received reads) := by
  intro h
  obtain ⟨s, hs, hp⟩ := h (CArray.fill CHAR_BUFFER_SIZE 0)
    [.ok [97] (by decide), .ok [98] (by decide), .ok [13] (by decide)]
  have hrun : ((shellTask (CArray.fill CHAR_BUFFER_SIZE 0)).run
      [.ok [97] (by decide), .ok [98] (by decide), .ok [13] (by decide)]).map Shell.published =
        some [[13, 98]] := by decide +kernel
  rw [hs, Option.map_some, hp] at hrun
  exact absurd hrun (by decide)

end CLIos
