import CLIos.Sys.Littlefs
import Mathlib.Data.List.Induction

/-!
# Listing a directory

`L_FS_LS` of components/SYS/sys_littlefs.c, on one directory: `none` if it does
not exist, otherwise the names that `readdir` yields, in order.

The key of an entry is a `uint8_t` that starts at 1 and is raised for each, as in
`L_FS_READ`: the 256th entry goes under 0, and from then on an entry takes the key
of the one 256 places before it.
-/

namespace CLIos

open TextFile

/-- `while ((entry = readdir(dir)) != NULL) { .. }` -/
def readdirLoop : List Bytes → Nat × LuaTable → Nat × LuaTable
  | [], st => st
  | name :: dir, st => readdirLoop dir (addRow st (cstr name))

def lFsLs (path : Option String) (dir : Option (List Bytes)) : Except String LuaTable :=
  match dir with
  | none => .error ("Directory not found: " ++ path.getD "/home")
  | some dir => .ok (readdirLoop dir (1, fun _ => none)).2

/-! ## Which entries the table holds -/

theorem readdirLoop_eq (dir : List Bytes) (st : Nat × LuaTable) :
    readdirLoop dir st = (dir.map cstr).foldl addRow st := by
  induction dir generalizing st with
  | nil => rfl
  | cons name dir ih => exact ih (addRow st (cstr name))

theorem lFsLs_eq (path : Option String) (dir : List Bytes) :
    lFsLs path (some dir) = .ok (tableOf (dir.map cstr)) := by
  show Except.ok (readdirLoop dir _).2 = _
  rw [readdirLoop_eq]
  rfl

/-- One row more: it goes under the number of rows, modulo 256. -/
theorem tableOf_concat (rows : List Bytes) (row : Bytes) :
    tableOf (rows ++ [row]) = settable (tableOf rows) ((rows.length + 1) % 256) row := by
  have hfst := foldl_addRow_fst rows 1 (fun _ => none) (by omega)
  unfold tableOf
  rw [List.foldl_append]
  show settable _ (rows.foldl addRow (1, fun _ => none)).1 row = _
  rw [hfst, Nat.add_comm]

/-- The last 256 rows are in the table, however many there are. -/
theorem tableOf_last (rows : List Bytes) (j : Nat) (hj : j < rows.length)
    (hlast : rows.length ≤ j + 256) : tableOf rows ((j + 1) % 256) = rows[j]? := by
  induction rows using List.reverseRecOn with
  | nil => exact absurd hj (Nat.not_lt_zero j)
  | append_singleton rows row ih =>
    rw [List.length_append, List.length_singleton] at hj hlast
    rw [tableOf_concat]
    unfold settable
    by_cases heq : j = rows.length
    · rw [if_pos (by rw [heq]), heq, List.getElem?_concat_length]
    · -- fewer than 256 places lie between the two, so their keys differ
      rw [if_neg (by omega), ih (by omega) (by omega), List.getElem?_append_left (by omega)]

/-- What the table holds: of the rows under one key the last. -/
theorem tableOf_eq_some_iff (rows : List Bytes) (k : Nat) (row : Bytes) :
    tableOf rows k = some row ↔
      ∃ j, rows[j]? = some row ∧ k = (j + 1) % 256 ∧ rows.length ≤ j + 256 := by
  constructor
  · intro h
    induction rows using List.reverseRecOn generalizing row with
    | nil => cases h
    | append_singleton rows last ih =>
      rw [tableOf_concat] at h
      unfold settable at h
      by_cases hk : k = (rows.length + 1) % 256
      · rw [if_pos hk] at h
        cases h
        refine ⟨rows.length, List.getElem?_concat_length, hk, ?_⟩
        rw [List.length_append, List.length_singleton]
        omega
      · rw [if_neg hk] at h
        obtain ⟨j, hj, hkey, hlast⟩ := ih row h
        have hlt : j < rows.length := (List.getElem?_eq_some_iff.mp hj).1
        refine ⟨j, by rw [List.getElem?_append_left hlt, hj], hkey, ?_⟩
        rw [List.length_append, List.length_singleton]
        omega
  · rintro ⟨j, hj, rfl, hlast⟩
    rw [tableOf_last rows j (List.getElem?_eq_some_iff.mp hj).1 hlast, hj]

/-- The keys are 1 to the number of names, and the value of each is the name. -/
def Lists (names : List Bytes) (t : LuaTable) : Prop :=
  ∀ k, t k = if k = 0 then none else names[k - 1]?

theorem lists_tableOf_iff (names : List Bytes) :
    Lists names (tableOf names) ↔ names.length ≤ 255 := by
  constructor
  · intro h
    by_contra hlong
    exact tableOf_zero names (by omega) (h 0)
  · exact fun h k => tableOf_eq names h k

/-- **Listing.**  `fs.ls` lists every entry once exactly in a directory of 255
entries at most. -/
theorem fs_ls_iff (path : Option String) (dir : List Bytes) :
    (∃ t, lFsLs path (some dir) = .ok t ∧ Lists (dir.map cstr) t) ↔ dir.length ≤ 255 := by
  rw [lFsLs_eq, ← List.length_map cstr, ← lists_tableOf_iff]
  constructor
  · rintro ⟨t, ht, h⟩
    cases ht
    exact h
  · exact fun h => ⟨_, rfl, h⟩

/-- 256 entries: the last goes under the key 0. -/
theorem fs_ls_256 : ¬ ∀ (path : Option String) (dir : List Bytes),
    ∃ t, lFsLs path (some dir) = .ok t ∧ Lists (dir.map cstr) t := by
  intro h
  obtain ⟨t, ht, hlists⟩ := h none (List.replicate 256 [102])
  rw [lFsLs_eq] at ht
  cases ht
  have hle := (lists_tableOf_iff _).mp hlists
  rw [List.length_map, List.length_replicate] at hle
  omega

end CLIos
