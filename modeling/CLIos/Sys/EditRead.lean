import CLIos.Sys.Littlefs

/-!
# One number for one line

`fs.read` numbers the lines of a file from 1, and `fs.edit` takes a number too.
The two should mean the same line.  `fs.edit` uses the number as an index from 0
into its rows (and refuses 0), so it edits the line after the one meant, and it
narrows the number to a `uint8_t` before the range check.
-/

namespace CLIos

open CMem TextFile

/-- `fs.read(file)[i]` -/
def LuaTable.get (t : LuaTable) (i : Int) : Option Bytes := if 0 < i then t i.toNat else none

/-- The table with the entry `i` removed, and those after it moved down. -/
def LuaTable.remove (t : LuaTable) (i : Int) : LuaTable :=
  fun k => if i < 1 ∨ (k : Int) < i then t k else t (k + 1)

/-- `fs.read` and `fs.edit` mean the same line by `i`. -/
structure SameLine (s : Bytes) (i : Int) (content : Bytes) : Prop where
  replaced : content ≠ [] → ∀ s', MayEdit s i content (.ok true, some s') →
    ∃ t, lFsRead (some s') = some (.ok t) ∧ LuaTable.get t i = some content
  deleted : content = [] → ∀ s', MayEdit s i content (.ok true, some s') →
    ∃ t t', lFsRead (some s) = some (.ok t) ∧ lFsRead (some s') = some (.ok t') ∧
      ∀ k, t' k = LuaTable.remove t i k
  accepted : 1 ≤ i → i ≤ 64 → i ≤ (readRows s).length → ∀ file,
    ¬ MayEdit s i content (.error "index out of range", file) ∧
      ¬ MayEdit s i content (.error "index out of range for delete", file)
  refused : ¬ (1 ≤ i ∧ i ≤ 64) → ∀ r, MayEdit s i content r →
    r = (.error "index out of range", some s)

/-- The rows `rows`, edited at `n` from 0, read as if edited at `n` from 1. -/
def SameAt (rows : List Bytes) (n : Nat) (content : Bytes) : Prop :=
  if cstr content = [] then
    -- nothing to delete, or two equal lines one after the other
    rows.length < n ∨ (n < rows.length ∧ content = [] ∧ rows[n - 1]? = rows[n]? ∧
      ∀ r ∈ rows.eraseIdx n, r.length ≠ 63)
  else
    -- the line before the one replaced is the new one already
    n < 64 ∧ (((padRows rows n).take n).flatMap (reread 63))[n - 1]? = some content

instance (rows : List Bytes) (n : Nat) (content : Bytes) : Decidable (SameAt rows n content) := by
  unfold SameAt
  infer_instance

/-- The condition: out of range, and out of range as a `uint8_t` too; or in
range, at most 64 rows, and `SameAt`. -/
def EditsSameLine (s : Bytes) (i : Int) (content : Bytes) : Prop :=
  if 1 ≤ i ∧ i ≤ 64 then (readRows s).length ≤ 64 ∧ SameAt (readRows s) i.toNat content
  else i % 256 = 0 ∨ 64 < i % 256

instance (s : Bytes) (i : Int) (content : Bytes) : Decidable (EditsSameLine s i content) := by
  unfold EditsSameLine
  infer_instance

/-! ## Rows read again -/

theorem length_reread (r : Bytes) : (reread 63 r).length = if r.length = 63 then 2 else 1 := by
  unfold reread
  split <;> rfl

theorem length_flatMap_reread (rows : List Bytes) :
    rows.length ≤ (rows.flatMap (reread 63)).length ∧
      (rows.flatMap (reread 63)).length ≤ 2 * rows.length := by
  induction rows with
  | nil => exact ⟨Nat.le_refl _, Nat.le_refl _⟩
  | cons r rows ih =>
    have hr := length_reread r
    rw [List.flatMap_cons, List.length_append, List.length_cons]
    split at hr <;> omega

/-- Rows read again are the same if none fills the buffer, and more otherwise. -/
theorem length_flatMap_reread_iff (rows : List Bytes) :
    (rows.flatMap (reread 63)).length = rows.length ↔ ∀ r ∈ rows, r.length ≠ 63 := by
  induction rows with
  | nil => exact iff_of_true rfl fun r hr => absurd hr List.not_mem_nil
  | cons r rows ih =>
    have hr := length_reread r
    have hle := (length_flatMap_reread rows).1
    rw [List.flatMap_cons, List.length_append, List.length_cons, List.forall_mem_cons, ← ih]
    by_cases hfull : r.length = 63
    · rw [if_pos hfull] at hr
      exact iff_of_false (by omega) fun h => h.1 hfull
    · rw [if_neg hfull] at hr
      exact ⟨fun h => ⟨hfull, by omega⟩, fun h => by omega⟩

theorem flatMap_reread_of_ne (rows : List Bytes) (h : ∀ r ∈ rows, r.length ≠ 63) :
    rows.flatMap (reread 63) = rows := by
  induction rows with
  | nil => rfl
  | cons r rows ih =>
    rw [List.forall_mem_cons] at h
    rw [List.flatMap_cons, ih h.2]
    unfold reread
    rw [if_neg h.1]
    rfl

/-- Deleting the one or the other of two neighbours. -/
theorem eraseIdx_eq_iff {α : Type} (l : List α) (n : Nat) (h1 : 1 ≤ n) :
    l.eraseIdx n = l.eraseIdx (n - 1) ↔ l[n - 1]? = l[n]? := by
  constructor
  · intro h
    have hat := congrArg (fun m => m[n - 1]?) h
    simp only [List.getElem?_eraseIdx] at hat
    rwa [if_pos (by omega), if_neg (by omega), Nat.sub_add_cancel h1] at hat
  · intro h
    ext j : 1
    rw [List.getElem?_eraseIdx, List.getElem?_eraseIdx]
    by_cases hlt : j < n - 1
    · rw [if_pos (by omega), if_pos hlt]
    · rw [if_neg hlt]
      by_cases hj : j = n - 1
      · subst hj
        rw [if_pos (by omega), h, Nat.sub_add_cancel h1]
      · rw [if_neg (by omega)]

theorem length_putRow_le (rows : List Bytes) (n : Nat) (row : Bytes) (hn : n < 64)
    (hlen : rows.length ≤ 64) : (putRow rows n row).length ≤ 64 := by
  rw [length_putRow]
  omega

/-- Edited rows are still rows. -/
theorem mem_editLines (rows : List Bytes) (n : Nat) (content : Bytes) (hc : newline ∉ content)
    (h : ∀ r ∈ rows, newline ∉ r ∧ 0 ∉ r ∧ r.length ≤ 63) :
    ∀ r ∈ editLines rows n content, newline ∉ r ∧ 0 ∉ r ∧ r.length ≤ 63 := by
  intro r hr
  unfold editLines at hr
  split at hr
  · exact h r (List.mem_of_mem_eraseIdx hr)
  · rcases List.mem_append.mp hr with hr | hr
    · rcases List.mem_append.mp (List.mem_of_mem_take hr) with hr | hr
      · exact h r hr
      · rw [(List.mem_replicate.mp hr).2]
        exact ⟨List.not_mem_nil, List.not_mem_nil, Nat.zero_le _⟩
    · rcases List.mem_cons.mp hr with rfl | hr
      · have hsub : (cstr content).take 63 ⊆ cstr content := List.take_subset _ _
        refine ⟨fun hn => hc ?_, fun h0 => zero_not_mem_cstr content (hsub h0), ?_⟩
        · exact (List.takeWhile_prefix _).subset (hsub hn)
        · rw [List.length_take]
          omega
      · exact h r (List.mem_of_mem_drop hr)

/-! ## Tables of rows -/

theorem tableOf_ext_iff (rows rows' : List Bytes) (h : rows.length ≤ 255)
    (h' : rows'.length ≤ 255) : (∀ k, tableOf rows k = tableOf rows' k) ↔ rows = rows' := by
  constructor
  · intro heq
    ext j : 1
    have hj := heq (j + 1)
    rw [tableOf_eq rows h, tableOf_eq rows' h'] at hj
    exact hj
  · rintro rfl k
    rfl

/-- To remove an entry is to delete its row. -/
theorem remove_tableOf (rows : List Bytes) (n : Nat) (h1 : 1 ≤ n) (h : rows.length ≤ 255) (k : Nat) :
    LuaTable.remove (tableOf rows) n k = tableOf (rows.eraseIdx (n - 1)) k := by
  have hle := List.length_eraseIdx_le rows (n - 1)
  unfold LuaTable.remove
  rw [tableOf_eq rows h, tableOf_eq rows h, tableOf_eq (rows.eraseIdx (n - 1)) (by omega),
    List.getElem?_eraseIdx]
  by_cases hk : k < n
  · rw [if_pos (by omega)]
    by_cases h0 : k = 0
    · rw [if_pos h0, if_pos h0]
    · rw [if_neg h0, if_neg h0, if_pos (by omega)]
  · rw [if_neg (by omega), if_neg (by omega), if_neg (by omega), if_neg (by omega),
      Nat.sub_add_cancel (by omega), Nat.add_sub_cancel]

/-- Deleting the row `n` from 0 is deleting the line `n` from 1. -/
theorem deleted_iff (rows : List Bytes) (n : Nat) (h1 : 1 ≤ n) (hn : n < rows.length)
    (hlen : rows.length ≤ 64) :
    (∀ k, tableOf ((rows.eraseIdx n).flatMap (reread 63)) k =
        LuaTable.remove (tableOf rows) n k) ↔
      rows[n - 1]? = rows[n]? ∧ ∀ r ∈ rows.eraseIdx n, r.length ≠ 63 := by
  have herase : (rows.eraseIdx n).length = rows.length - 1 := List.length_eraseIdx_of_lt hn
  have herase' : (rows.eraseIdx (n - 1)).length = rows.length - 1 :=
    List.length_eraseIdx_of_lt (by omega)
  have hdouble := (length_flatMap_reread (rows.eraseIdx n)).2
  simp only [remove_tableOf rows n h1 (by omega)]
  rw [tableOf_ext_iff _ _ (by omega) (by omega)]
  constructor
  · intro heq
    have hshort : ∀ r ∈ rows.eraseIdx n, r.length ≠ 63 := by
      apply (length_flatMap_reread_iff _).mp
      rw [heq, herase, herase']
    rw [flatMap_reread_of_ne _ hshort] at heq
    exact ⟨(eraseIdx_eq_iff rows n h1).mp heq, hshort⟩
  · rintro ⟨heq, hshort⟩
    rw [flatMap_reread_of_ne _ hshort]
    exact (eraseIdx_eq_iff rows n h1).mpr heq

/-- The line `n` from 1 comes from the rows before the row `n` from 0. -/
theorem get_putRow (rows : List Bytes) (n : Nat) (row : Bytes) (h1 : 1 ≤ n) (hn : n < 64)
    (hlen : rows.length ≤ 64) :
    LuaTable.get (tableOf ((putRow rows n row).flatMap (reread 63))) n =
      (((padRows rows n).take n).flatMap (reread 63))[n - 1]? := by
  have hput := length_putRow_le rows n row hn hlen
  have hdouble := (length_flatMap_reread (putRow rows n row)).2
  have hfront := (length_flatMap_reread ((padRows rows n).take n)).1
  rw [List.length_take, length_padRows] at hfront
  unfold LuaTable.get
  rw [if_pos (by omega), Int.toNat_natCast, tableOf_eq _ (by omega), if_neg (by omega)]
  unfold putRow
  rw [List.flatMap_append, List.getElem?_append_left (by omega)]

/-! ## One number for one line -/

/-- When rows are written, it depends on what is read from them. -/
theorem sameLine_done_iff (s : Bytes) (n : Nat) (content : Bytes) (hc : newline ∉ content)
    (h1 : 1 ≤ n) (hn : n < 64) (hlen : (readRows s).length ≤ 64)
    (hdel : cstr content = [] → n < (readRows s).length) :
    SameLine s n content ↔
      (content ≠ [] →
        LuaTable.get (tableOf ((editLines (readRows s) n content).flatMap (reread 63))) n =
          some content) ∧
      (content = [] → ∀ k, tableOf ((editLines (readRows s) n content).flatMap (reread 63)) k =
        LuaTable.remove (tableOf (readRows s)) n k) := by
  have hmay : ∀ r, MayEdit s n content r ↔
      r = (.ok true, some (unlines (editLines (readRows s) n content))) ∨
        r = (.error "failed to open file for write", some s) :=
    mayEdit_done_iff (by omega) ⟨h1, hn⟩ hlen hdel
  have hok : ∀ s', MayEdit s n content (.ok true, some s') ↔
      s' = unlines (editLines (readRows s) n content) := by
    intro s'
    simp [hmay]
  have hread : lFsRead (some (unlines (editLines (readRows s) n content))) =
      some (.ok (tableOf ((editLines (readRows s) n content).flatMap (reread 63)))) := by
    rw [lFsRead_eq, readRows_unlines _ (mem_editLines _ n content hc (mem_readRows s))]
  constructor
  · intro h
    refine ⟨fun hne => ?_, fun hnil => ?_⟩
    · obtain ⟨t, ht, hget⟩ := h.replaced hne _ ((hok _).mpr rfl)
      rw [hread] at ht
      cases ht
      exact hget
    · obtain ⟨t, t', ht, ht', hk⟩ := h.deleted hnil _ ((hok _).mpr rfl)
      rw [lFsRead_eq] at ht
      rw [hread] at ht'
      cases ht
      cases ht'
      exact hk
  · rintro ⟨hget, hk⟩
    refine ⟨fun hne s' hs' => ?_, fun hnil s' hs' => ?_, fun _ _ _ file => ?_, fun hout => ?_⟩
    · rw [(hok s').mp hs']
      exact ⟨_, hread, hget hne⟩
    · rw [(hok s').mp hs']
      exact ⟨_, _, lFsRead_eq s, hread, hk hnil⟩
    · simp [hmay]
    · exact absurd ⟨by omega, by omega⟩ hout

/-- Where the edit is undefined, nothing it should do is certain. -/
theorem not_sameLine_of_none (s : Bytes) (n : Nat) (content : Bytes) (h1 : 1 ≤ n) (hn : n ≤ 64)
    (h : ∀ writable, Edited s n content writable none)
    (hmeant : n ≤ (readRows s).length ∨ content ≠ []) : ¬ SameLine s n content := by
  intro hsame
  have hmay : ∀ r, MayEdit s n content r :=
    fun r => (mayEdit_iff h r).mpr ⟨true, allows_none r⟩
  rcases hmeant with hle | hne
  · exact (hsame.accepted (by omega) (by omega) (by omega) none).1 (hmay _)
  · obtain ⟨t, ht, hget⟩ := hsame.replaced hne [] (hmay _)
    rw [lFsRead_eq] at ht
    cases ht
    unfold LuaTable.get at hget
    rw [if_pos (by omega)] at hget
    cases hget

/-- A deletion refused because the rows end before the row `n` from 0. -/
theorem sameLine_nothing_iff (s : Bytes) (n : Nat) (content : Bytes) (h1 : 1 ≤ n) (hn : n ≤ 64)
    (h : ∀ writable, Edited s n content writable
      (some (.error "index out of range for delete", some s)))
    (hle : (readRows s).length ≤ n) : SameLine s n content ↔ (readRows s).length < n := by
  have hmay : ∀ r, MayEdit s n content r ↔ r = (.error "index out of range for delete", some s) := by
    intro r
    simp only [mayEdit_iff h, allows_some_iff, exists_const]
  constructor
  · intro hsame
    by_contra hlt
    exact (hsame.accepted (by omega) (by omega) (by omega) (some s)).2 ((hmay _).mpr rfl)
  · intro hlt
    refine ⟨fun _ s' hs' => ?_, fun _ s' hs' => ?_, fun _ _ hin => ?_, fun hout => ?_⟩
    · cases (hmay _).mp hs'
    · cases (hmay _).mp hs'
    · omega
    · exact absurd ⟨by omega, by omega⟩ hout

theorem mem_of_mem_reread {rows : List Bytes} {r : Bytes} (h : r ∈ rows.flatMap (reread 63))
    (hne : r ≠ []) : r ∈ rows := by
  obtain ⟨r', hr', h⟩ := List.mem_flatMap.mp h
  unfold reread at h
  split at h <;> simp_all

theorem sameLine_in_iff (s : Bytes) (n : Nat) (content : Bytes) (hc : newline ∉ content)
    (h1 : 1 ≤ n) (hn : n ≤ 64) :
    SameLine s n content ↔ (readRows s).length ≤ 64 ∧ SameAt (readRows s) n content := by
  have hmod : ((n : Int) % 256).toNat = n := by omega
  by_cases hrows : (readRows s).length ≤ 64
  · rw [and_iff_right hrows]
    unfold SameAt
    by_cases hnil : cstr content = []
    · rw [if_pos hnil]
      by_cases hlt : n < (readRows s).length
      · have hedit : editLines (readRows s) n content = (readRows s).eraseIdx n := if_pos hnil
        rw [sameLine_done_iff s n content hc h1 (by omega) hrows fun _ => hlt, hedit,
          deleted_iff _ n h1 hlt hrows]
        by_cases hcontent : content = []
        · simp [hcontent, hlt, Nat.not_lt_of_lt hlt]
        · -- the content begins with a NUL, and no row does
          refine iff_of_false (fun h => ?_) (fun h => ?_)
          · have hlen := (length_flatMap_reread ((readRows s).eraseIdx n)).2
            have hle := List.length_eraseIdx_le (readRows s) n
            have hget := h.1 hcontent
            unfold LuaTable.get at hget
            rw [if_pos (by omega), Int.toNat_natCast, tableOf_eq _ (by omega), if_neg (by omega)]
              at hget
            have hmem := mem_of_mem_reread (List.mem_of_getElem? hget) hcontent
            have hzero := (mem_readRows s content (List.mem_of_mem_eraseIdx hmem)).2.1
            exact hcontent ((cstr_of_not_mem hzero).symm.trans hnil)
          · rcases h with h | h
            · omega
            · exact hcontent h.2.1
      · rw [sameLine_nothing_iff s n content h1 hn
          (fun _ => .nothing (by omega) hrows hnil (by omega)) (by omega)]
        exact ⟨Or.inl, fun h => h.resolve_right fun h => hlt h.1⟩
    · rw [if_neg hnil]
      have hne : content ≠ [] := fun h => hnil (by rw [h]; rfl)
      by_cases hlt : n < 64
      · have hedit : editLines (readRows s) n content =
            putRow (readRows s) n ((cstr content).take 63) := if_neg hnil
        rw [sameLine_done_iff s n content hc h1 hlt hrows fun h => absurd h hnil, hedit,
          get_putRow _ n _ h1 hlt hrows, and_iff_right hlt]
        exact ⟨fun h => h.1 hne, fun h => ⟨fun _ => h, fun h => absurd h hne⟩⟩
      · refine iff_of_false ?_ (fun h => hlt h.1)
        exact not_sameLine_of_none s n content h1 hn
          (fun _ => .beyond (by omega) hrows hnil) (Or.inr hne)
  · refine iff_of_false ?_ (fun h => hrows h.1)
    exact not_sameLine_of_none s n content h1 hn
      (fun _ => .overflow (by omega) (by omega)) (Or.inl (by omega))

theorem sameLine_out_iff (s : Bytes) (i : Int) (content : Bytes) (hi : ¬ (1 ≤ i ∧ i ≤ 64)) :
    SameLine s i content ↔ i % 256 = 0 ∨ 64 < i % 256 := by
  constructor
  · intro hsame
    have hspec := lFsEdit_spec (CArray.fill _ []) s i content true
    have hrefused : ∀ r, Allows (lFsEdit (CArray.fill _ []) (some s) i content true) r →
        r = (.error "index out of range", some s) :=
      fun r hr => hsame.refused hi r ⟨_, _, hr⟩
    generalize lFsEdit (CArray.fill _ []) (some s) i content true = o at hspec hrefused
    cases hspec with
    | outOfRange hr => omega
    | overflow => cases hrefused (.ok true, none) (allows_none _)
    | beyond => cases hrefused (.ok true, none) (allows_none _)
    | nothing => simpa using hrefused _ ((allows_some_iff _ _).mpr rfl)
    | done => cases hrefused _ ((allows_some_iff _ _).mpr rfl)
  · intro hout
    have hmay : ∀ r, MayEdit s i content r ↔ r = (.error "index out of range", some s) := by
      intro r
      have hedited : ∀ writable, Edited s i content writable
          (some (.error "index out of range", some s)) := fun _ => .outOfRange (by omega)
      simp only [mayEdit_iff hedited, allows_some_iff, exists_const]
    refine ⟨fun _ s' hs' => ?_, fun _ s' hs' => ?_, fun hlo hhi => ?_, fun _ r hr => (hmay r).mp hr⟩
    · cases (hmay _).mp hs'
    · cases (hmay _).mp hs'
    · exact absurd ⟨hlo, hhi⟩ hi

/-- **One number for one line.**  In range, the number means one line only if the
edit comes out the same one line further down; out of range, it is refused only
if it is out of range as a `uint8_t`. -/
theorem fs_edit_same_line_iff (s : Bytes) (i : Int) (content : Bytes) (hc : newline ∉ content) :
    SameLine s i content ↔ EditsSameLine s i content := by
  unfold EditsSameLine
  by_cases hi : 1 ≤ i ∧ i ≤ 64
  · obtain ⟨n, rfl⟩ := Int.eq_ofNat_of_zero_le (show 0 ≤ i by omega)
    rw [if_pos hi, Int.toNat_natCast]
    exact sameLine_in_iff s n content hc (by omega) (by omega)
  · rw [if_neg hi]
    exact sameLine_out_iff s i content hi

/-- The line 1 is already what the line 2 is made: read as if the line 1 had been edited. -/
theorem fs_edit_same_line_already : SameLine [98, 10, 97, 10] 1 [98] :=
  (fs_edit_same_line_iff [98, 10, 97, 10] 1 [98] (by decide)).mpr (by decide +kernel)

/-- One line: the number 1 adds a second, and the first is what it was. -/
theorem fs_edit_next_line :
    ¬ ∀ s i content, 0 ∉ s → newline ∉ content → content.length ≤ 62 → SameLine s i content := by
  intro h
  have hrun : lFsEdit (CArray.fill _ []) (some [97, newline]) 1 [98] true =
      some (.ok true, some [97, newline, 98, newline]) := rfl
  have hsame := h [97, newline] 1 [98] (by decide) (by decide) (by decide)
  obtain ⟨t, ht, hget⟩ := hsame.replaced (by decide) _
    ⟨CArray.fill _ [], true, by rw [hrun]; exact (allows_some_iff _ _).mpr rfl⟩
  rw [lFsRead_eq] at ht
  cases ht
  exact absurd hget (by decide +kernel)

end CLIos
