import CLIos.Core.ShellLines

/-!
# Between two bytes of a read

`onRead` takes a read as a whole; here the console task is looked at before each
round of its loop over the bytes (`atRound`).  The rounds are all defined, which
says that no access leaves `bufferInput` or a row, and they keep `TwoRows`: the
two lines published last stand in the two rows, the last one in the active row.

The branch for the quit key is tried in the rounds that see an end of line, so
no round takes it and `stopFlag` is left alone (`onByte_stopFlag`).
-/

namespace CLIos

open CMem Runs Text

namespace Shell

/-- A read stored and the first `n` rounds made. -/
def during (s : Shell) (r : UartRead) (n : Nat) : Option Shell :=
  (s.bufferInput.memcpy 0 r.data).bind fun input => onBytes { s with bufferInput := input } n

theorem during_length (s : Shell) (r : UartRead) : s.during r r.data.length = s.onRead r := rfl

theorem during_succ (s : Shell) (r : UartRead) (n : Nat) :
    s.during r (n + 1) = (s.during r n).bind fun s => s.onByte n := by
  unfold during
  cases s.bufferInput.memcpy 0 r.data with
  | none => rfl
  | some input => exact onBytes_succ _ n

/-! ## The rows -/

/-- Row `i` holds the line `l`, its length and a NUL behind it. -/
structure Holds (s : Shell) (i : Bool) (l : List UInt8) : Prop where
  len : s.bufferPerlineLen i = l.length
  bytes : (s.bufferPerline i).first l.length = l
  nul : (s.bufferPerline i).load l.length = some 0

end Shell

/-- The row that publication `k` goes to, counted from 0; `active_index` starts at 0. -/
def publicationRow (k : Nat) : Bool := k % 2 == 0

theorem publicationRow_succ (k : Nat) : publicationRow (k + 1) = !publicationRow k := by
  rcases Nat.mod_two_eq_zero_or_one k with h | h
  · simp [publicationRow, h, show (k + 1) % 2 = 1 by omega]
  · simp [publicationRow, h, show (k + 1) % 2 = 0 by omega]

namespace Shell

structure TwoRows (s : Shell) : Prop where
  index : s.index ≤ 63
  lines : ∀ l ∈ s.published, 0 < l.length ∧ l.length ≤ 63
  active : s.activeIndex = !publicationRow s.published.length
  rows : ∀ (k : Nat) (l : List UInt8), s.published[k]? = some l → s.published.length ≤ k + 2 →
    s.Holds (publicationRow k) l

theorem TwoRows.start (stack : CArray UInt8 CHAR_BUFFER_SIZE) : (Shell.start stack).TwoRows where
  index := Nat.zero_le _
  lines := by intro l hl; cases hl
  active := rfl
  rows := by intro k l hl; cases hl

/-- What is kept where neither the rows nor the published lines change. -/
theorem TwoRows.of_index {s : Shell} (h : s.TwoRows) (input : CArray UInt8 CHAR_BUFFER_SIZE)
    {n : Nat} (hn : n ≤ 63) : TwoRows { s with bufferInput := input, index := n } where
  index := hn
  lines := h.lines
  active := h.active
  rows := fun k l hk hlen => ⟨(h.rows k l hk hlen).len, (h.rows k l hk hlen).bytes,
    (h.rows k l hk hlen).nul⟩

/-- A publication fills the row that is not active and turns to it. -/
theorem publish_holds {s s' : Shell} (hidx : s.index ≤ 63) (h : s.publish = some s') :
    ∃ l, l.length = s.index ∧ s'.published = s.published ++ [l] ∧
      s'.activeIndex = !s.activeIndex ∧ s'.Holds (!s.activeIndex) l ∧
      ∀ l', s.Holds s.activeIndex l' → s'.Holds s.activeIndex l' := by
  have hclamp : ¬ 64 ≤ s.index := by omega
  simp only [publish, hclamp, if_false, Option.bind_eq_some_iff] at h
  obtain ⟨input, -, copied, hcp, row, hrow, h⟩ := h
  have hlen : (row.first s.index).length = s.index := CArray.length_first _ _ (show _ ≤ 64 by omega)
  obtain rfl := Option.some.inj h
  refine ⟨row.first s.index, hlen, rfl, rfl, ⟨?_, ?_, ?_⟩, fun l' h' => ⟨?_, ?_, ?_⟩⟩
  · simp [hlen]
  · simp [hlen]
  · simp [hlen, CArray.load_store_self hrow]
  · simpa using h'.len
  · simpa using h'.bytes
  · simpa using h'.nul

theorem TwoRows.publish {s s' : Shell} (h : s.TwoRows) (hpos : 0 < s.index)
    (hs' : s.publish = some s') : TwoRows { s' with index := 0 } := by
  obtain ⟨l, hlen, hpub, hact, hl, hkeep⟩ := publish_holds h.index hs'
  have hnew : publicationRow s.published.length = !s.activeIndex := by rw [h.active, Bool.not_not]
  have hlast : s'.published.length = s.published.length + 1 := by
    rw [hpub, List.length_append, List.length_singleton]
  refine ⟨Nat.zero_le _, fun m hm => ?_, ?_, fun k m hk hle => ?_⟩
  · rcases List.mem_append.mp (hpub ▸ hm) with hm | hm
    · exact h.lines m hm
    · obtain rfl := List.mem_singleton.mp hm
      rw [hlen]
      exact ⟨hpos, h.index⟩
  · show s'.activeIndex = !publicationRow s'.published.length
    rw [hlast, publicationRow_succ, hact, hnew]
    simp
  · have hk : (s.published ++ [l])[k]? = some m := hpub ▸ hk
    have hle : s'.published.length ≤ k + 2 := hle
    rw [hlast] at hle
    -- the line published now, or the one before it, whose row is the other one
    have hrow : s'.Holds (publicationRow k) m := by
      rcases Nat.lt_or_ge k s.published.length with hlt | hge
      · rw [List.getElem?_append_left hlt] at hk
        have hother : publicationRow k = s.activeIndex := by
          have hsucc := publicationRow_succ k
          rw [show k + 1 = s.published.length by omega, hnew] at hsucc
          exact (Bool.not_inj hsucc).symm
        rw [hother]
        exact hkeep m (hother ▸ h.rows k m hk (by omega))
      · rw [List.getElem?_append_right hge] at hk
        have hk0 : k - s.published.length = 0 := by
          have := (List.getElem?_eq_some_iff.mp hk).1
          simp only [List.length_singleton] at this
          omega
        rw [hk0] at hk
        obtain rfl := Option.some.inj hk
        rw [show k = s.published.length by omega, hnew]
        exact hl
    exact ⟨hrow.len, hrow.bytes, hrow.nul⟩

/-- The test for the quit key comes after the test for an end of line. -/
theorem quitKey_eol {c : UInt8} (hc : isEol c = true) (s : Shell) : quitKey c s = s := by
  have hne : c ≠ 113 := by
    rintro rfl
    exact absurd hc (by decide)
  exact if_neg hne

/-- What a round does: nothing, publish the line, or keep one more byte. -/
theorem onByte_cases {s s' : Shell} {i : Nat} (h : s.onByte i = some s') :
    s' = s ∨
    (∃ s₁, 0 < s.index ∧ s.publish = some s₁ ∧ s' = { s₁ with index := 0 }) ∨
    ∃ input, s.index + 1 ≤ 63 ∧ s' = { s with bufferInput := input, index := s.index + 1 } := by
  unfold onByte at h
  obtain ⟨c, -, h⟩ := Option.bind_eq_some_iff.mp h
  split at h
  · next hc =>
    split at h
    · next hpos =>
      obtain ⟨s₁, h₁, h⟩ := Option.bind_eq_some_iff.mp h
      rw [quitKey_eol hc] at h
      exact Or.inr (Or.inl ⟨s₁, hpos, h₁, (Option.some.inj h).symm⟩)
    · exact Or.inl (Option.some.inj h).symm
  · split at h
    · next hlt =>
      obtain ⟨input, -, h⟩ := Option.bind_eq_some_iff.mp h
      exact Or.inr (Or.inr ⟨input, hlt, (Option.some.inj h).symm⟩)
    · exact Or.inl (Option.some.inj h).symm

theorem publish_stopFlag {s s' : Shell} (h : s.publish = some s') : s'.stopFlag = s.stopFlag := by
  simp only [publish, Option.bind_eq_some_iff] at h
  obtain ⟨input, -, copied, -, row, -, h⟩ := h
  obtain rfl := Option.some.inj h
  rfl

theorem onByte_stopFlag {s s' : Shell} {i : Nat} (h : s.onByte i = some s') :
    s'.stopFlag = s.stopFlag := by
  obtain rfl | ⟨s₁, -, hpub, rfl⟩ | ⟨input, -, rfl⟩ := onByte_cases h
  · rfl
  · have hflag := publish_stopFlag hpub
    exact hflag
  · rfl

theorem TwoRows.onByte {s s' : Shell} {i : Nat} (h : s.TwoRows) (hs' : s.onByte i = some s') :
    s'.TwoRows := by
  obtain rfl | ⟨s₁, hpos, hpub, rfl⟩ | ⟨input, hidx, rfl⟩ := onByte_cases hs'
  · exact h
  · exact h.publish hpos hpub
  · exact h.of_index input hidx

/-- The rounds of a read are defined one after the other. -/
theorem during_total {s : Shell} (h : s.TwoRows) (r : UartRead) (n : Nat)
    (hn : n ≤ r.data.length) : ∃ s', s.during r n = some s' ∧ s'.TwoRows := by
  have hlen := r.length_data_le
  induction n with
  | zero =>
    obtain ⟨input, hcp⟩ := (CArray.memcpy_eq_some_iff s.bufferInput 0 r.data).mpr
      (show 0 + r.data.length ≤ 64 by omega)
    refine ⟨{ s with bufferInput := input }, ?_, h.of_index input h.index⟩
    rw [during, hcp]
    rfl
  | succ n ih =>
    obtain ⟨s₁, h₁, hrows⟩ := ih (by omega)
    obtain ⟨s₂, h₂, -⟩ := s₁.onByte_total n (by omega) hrows.index
    refine ⟨s₂, ?_, hrows.onByte h₂⟩
    rw [during_succ, h₁]
    exact h₂

end Shell

theorem shellTask_twoRows (stack : CArray UInt8 CHAR_BUFFER_SIZE) (reads : List UartRead) :
    ∃ s, (shellTask stack).run reads = some s ∧ s.TwoRows := by
  apply Machine.total_of_step
  · exact Shell.TwoRows.start stack
  · intro _ s r hrows
    obtain ⟨s', hs', hrows'⟩ := Shell.during_total hrows r r.data.length (Nat.le_refl _)
    rw [Shell.during_length] at hs'
    exact ⟨s', hs', hrows'⟩

/-- The task after the reads `pre` and `n` rounds of the read that follows. -/
def atRound (stack : CArray UInt8 CHAR_BUFFER_SIZE) (pre : List UartRead) (r : UartRead)
    (n : Nat) : Option Shell :=
  ((shellTask stack).run pre).bind fun s => s.during r n

theorem atRound_total (stack : CArray UInt8 CHAR_BUFFER_SIZE) (pre : List UartRead) (r : UartRead)
    (n : Nat) (hn : n ≤ r.data.length) : ∃ s, atRound stack pre r n = some s ∧ s.TwoRows := by
  obtain ⟨s, hs, hrows⟩ := shellTask_twoRows stack pre
  obtain ⟨s', hs', hrows'⟩ := Shell.during_total hrows r n hn
  refine ⟨s', ?_, hrows'⟩
  rw [atRound, hs]
  exact hs'

/-- `P` holds of the task before every round, whatever was read. -/
def EveryRound (stack : CArray UInt8 CHAR_BUFFER_SIZE) (P : Shell → Prop) : Prop :=
  ∀ (pre : List UartRead) (r : UartRead) (n : Nat), n ≤ r.data.length →
    ∃ s, atRound stack pre r n = some s ∧ P s

/-- **The two rows.**  No access is out of bounds, the clamp is never taken, and
the last two lines stand in the two rows, the last one in the active row. -/
theorem shell_rows (stack : CArray UInt8 CHAR_BUFFER_SIZE) :
    EveryRound stack fun s => s.TwoRows ∧ ¬ CHAR_BUFFER_SIZE ≤ s.index := by
  intro pre r n hn
  obtain ⟨s, hs, hrows⟩ := atRound_total stack pre r n hn
  have hidx := hrows.index
  exact ⟨s, hs, hrows, show ¬ 64 ≤ s.index by omega⟩

/-! ## The quit key -/

/-- The byte `c` ends, after the bytes `stream`, a line that is the quit key alone. -/
def quitTyped (stream : List UInt8) (c : UInt8) : Bool :=
  isEol c && openRun isEol stream == [113]

/-- The flag after a round is set if the round ended such a line, and is else
what the Lua task had left it. -/
def QuitKeyInterrupts (stack : CArray UInt8 CHAR_BUFFER_SIZE) (reads : List UartRead) : Prop :=
  ∀ pre r u c v, pre ++ [r] <+: reads → r.data = u ++ c :: v →
    ∀ s, atRound stack pre r u.length = some s →
    ∀ flag s', ({ s with stopFlag := flag } : Shell).onByte u.length = some s' →
      s'.stopFlag = (flag || quitTyped (received pre ++ u) c)

/-- Every byte received was received in one of the reads. -/
theorem received_eq_append_cons (reads : List UartRead) (w v : List UInt8) (c : UInt8)
    (h : received reads = w ++ c :: v) :
    ∃ pre r u z, pre ++ [r] <+: reads ∧ r.data = u ++ c :: z ∧ w = received pre ++ u := by
  induction reads using List.reverseRecOn generalizing v with
  | nil => simp [received] at h
  | append_singleton reads r ih =>
    rw [received_concat] at h
    rcases List.append_eq_append_iff.mp h with ⟨u, hw, hr⟩ | ⟨t, hreads, hv⟩
    · exact ⟨reads, r, u, v, List.prefix_rfl, hr, hw⟩
    · cases t with
      | nil =>
        refine ⟨reads, r, [], v, List.prefix_rfl, ?_, ?_⟩
        · simpa using hv.symm
        · simpa using hreads.symm
      | cons d t =>
        rw [List.cons_append, List.cons.injEq] at hv
        obtain ⟨rfl, -⟩ := hv
        obtain ⟨pre, r', u, z, hpre, hr', hw⟩ := ih t hreads
        exact ⟨pre, r', u, z, hpre.trans (List.prefix_append _ _), hr', hw⟩

theorem received_prefix {pre reads : List UartRead} {r : UartRead} (h : pre ++ [r] <+: reads) :
    ∃ v, received reads = received pre ++ r.data ++ v := by
  obtain ⟨post, rfl⟩ := h
  exact ⟨received post, by simp [received]⟩

/-- No round sets the flag: the key is only looked for in a byte that ends a line. -/
theorem quitKeyInterrupts_iff_forall (stack : CArray UInt8 CHAR_BUFFER_SIZE)
    (reads : List UartRead) : QuitKeyInterrupts stack reads ↔
      ∀ pre r u c v, pre ++ [r] <+: reads → r.data = u ++ c :: v →
        quitTyped (received pre ++ u) c = false := by
  constructor
  · intro h pre r u c v hpre hr
    have hlt : u.length < r.data.length := by
      rw [hr, List.length_append, List.length_cons]
      omega
    obtain ⟨s, hs, hrows⟩ := atRound_total stack pre r u.length (Nat.le_of_lt hlt)
    have hlen := r.length_data_le
    obtain ⟨s', hs', -⟩ := Shell.onByte_total { s with stopFlag := false } u.length (by omega)
      hrows.index
    have hflag := h pre r u c v hpre hr s hs false s' hs'
    rw [Shell.onByte_stopFlag hs'] at hflag
    simpa using hflag.symm
  · intro h pre r u c v hpre hr s _ flag s' hs'
    rw [Shell.onByte_stopFlag hs', h pre r u c v hpre hr, Bool.or_false]

/-- **The quit key.**  It does what it is for exactly in the streams that never
type it: where no line is the single byte `q`. -/
theorem quit_key_iff (stack : CArray UInt8 CHAR_BUFFER_SIZE) (reads : List UartRead) :
    QuitKeyInterrupts stack reads ↔ [113] ∉ closedRuns isEol (received reads) := by
  rw [quitKeyInterrupts_iff_forall]
  constructor
  · intro h hmem
    obtain ⟨w, c, v, hw, hc, hopen⟩ := exists_of_mem_closedRuns _ hmem
    obtain ⟨pre, r, u, z, hpre, hr, rfl⟩ := received_eq_append_cons reads w v c hw
    have hquit := h pre r u c z hpre hr
    simp [quitTyped, hc, hopen] at hquit
  · intro h pre r u c v hpre hr
    obtain ⟨post, hpost⟩ := received_prefix hpre
    by_contra hquit
    have hquit : isEol c = true ∧ openRun isEol (received pre ++ u) = [113] := by
      simpa [quitTyped] using hquit
    refine h ?_
    have hsplit : received reads = received pre ++ u ++ c :: (v ++ post) := by
      rw [hpost, hr]
      simp
    rw [hsplit]
    exact mem_closedRuns_of_openRun _ _ hquit.1 hquit.2 (List.cons_ne_nil _ _)

/-- `q` and a newline, in one read. -/
theorem quit_key_ignored :
    ¬ ∀ (stack : CArray UInt8 CHAR_BUFFER_SIZE) (reads : List UartRead),
      QuitKeyInterrupts stack reads := by
  intro h
  have hread := h (CArray.fill CHAR_BUFFER_SIZE 0) [.ok [113, 10] (by decide)] []
    (.ok [113, 10] (by decide)) [113] 10 [] List.prefix_rfl rfl
  obtain ⟨s, hs⟩ : ∃ s, atRound (CArray.fill CHAR_BUFFER_SIZE 0) []
      (.ok [113, 10] (by decide)) 1 = some s := ⟨_, rfl⟩
  obtain ⟨s', hs'⟩ : ∃ s', ({ s with stopFlag := false } : Shell).onByte 1 = some s' := by
    obtain rfl := Option.some.inj hs
    exact ⟨_, rfl⟩
  have hflag := hread s hs false s' hs'
  rw [Shell.onByte_stopFlag hs'] at hflag
  have hfalse : false = quitTyped [113] 10 := hflag
  exact absurd hfalse (by decide)

end CLIos
