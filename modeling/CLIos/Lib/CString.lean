import CLIos.Lib.CArray
import CLIos.Lib.TextFile

/-!
# C strings in arrays

A string in an array of bytes is what stands before the first NUL; without one the
array holds no string, and who copies it reads past its end (`none`).
-/

namespace CMem

open TextFile

namespace CArray

variable {n : Nat}

def str (a : CArray UInt8 n) : Bytes := cstr a.cells

def Terminated (a : CArray UInt8 n) : Prop := (0 : UInt8) ∈ a.cells

def strcpy (dst src : CArray UInt8 n) : Option (CArray UInt8 n) :=
  if (0 : UInt8) ∈ src.cells then dst.memcpy 0 (src.str ++ [0]) else none

/-- `strncpy` of a C string: `k` bytes, zeros after the end of the string. -/
def strncpy (dst : CArray UInt8 n) (src : Bytes) (k : Nat) : Option (CArray UInt8 n) :=
  dst.memcpy 0 ((cstr src).take k ++ List.replicate (k - (cstr src).length) 0)

theorem zero_notMem_str (a : CArray UInt8 n) : (0 : UInt8) ∉ a.str := zero_not_mem_cstr a.cells

/-- An array that begins with a string and its NUL. -/
theorem str_of_cells {a : CArray UInt8 n} {s rest : Bytes} (h : a.cells = s ++ 0 :: rest)
    (hs : (0 : UInt8) ∉ s) : a.Terminated ∧ a.str = s := by
  constructor
  · unfold Terminated
    rw [h]
    exact List.mem_append_right _ List.mem_cons_self
  · unfold str
    rw [h, cstr_append_nul hs]

/-- The string and its NUL fit. -/
theorem length_str_lt {a : CArray UInt8 n} (h : a.Terminated) : a.str.length < n := by
  have hle : a.str.length ≤ a.cells.length := (List.takeWhile_prefix _).length_le
  rw [a.size] at hle
  refine Nat.lt_of_le_of_ne hle fun heq => zero_notMem_str a ?_
  have hall : a.str = a.cells := (List.takeWhile_prefix _).eq_of_length (heq.trans a.size.symm)
  rw [hall]
  exact h

theorem strcpy_spec (dst : CArray UInt8 n) {src : CArray UInt8 n} (h : src.Terminated) :
    ∃ a, dst.strcpy src = some a ∧ a.Terminated ∧ a.str = src.str := by
  have hlt := length_str_lt h
  obtain ⟨a, ha⟩ := (memcpy_eq_some_iff dst 0 (src.str ++ [0])).mpr (by
    rw [List.length_append, List.length_singleton]
    omega)
  have hcells := cells_of_memcpy ha
  rw [List.take_zero, List.nil_append, List.append_assoc] at hcells
  exact ⟨a, (if_pos h).trans ha, str_of_cells hcells (zero_notMem_str src)⟩

/-- `a[0] = '\0'` -/
theorem store_zero_spec {a a' : CArray UInt8 n} (h : a.store 0 0 = some a') :
    a'.Terminated ∧ a'.str = [] := by
  have hlt := store_lt h
  have hcells := cells_of_store h
  cases hc : a.cells with
  | nil =>
    have hsize := a.size
    rw [hc, List.length_nil] at hsize
    omega
  | cons x rest =>
    rw [hc, List.set_cons_zero] at hcells
    exact str_of_cells (s := []) hcells List.not_mem_nil

/-- `strncpy(a, src, k); a[k] = '\0'`, with room for both. -/
theorem strncpy_spec (dst : CArray UInt8 n) (src : Bytes) {k : Nat} (hk : k < n) :
    ∃ a a', dst.strncpy src k = some a ∧ a.store k 0 = some a' ∧ a'.Terminated ∧
      a'.str = (cstr src).take k := by
  let copied := (cstr src).take k
  let zeros := List.replicate (k - (cstr src).length) (0 : UInt8)
  have hlen : (copied ++ zeros).length = k := by
    rw [List.length_append, List.length_take, List.length_replicate]
    omega
  obtain ⟨a, ha⟩ := (memcpy_eq_some_iff dst 0 (copied ++ zeros)).mpr (by omega)
  obtain ⟨a', ha'⟩ := a.store_eq_some k 0 hk
  have hrest : dst.cells.drop (0 + (copied ++ zeros).length) ≠ [] := by
    rw [hlen, ne_eq, List.drop_eq_nil_iff, dst.size]
    omega
  obtain ⟨x, rest, hx⟩ := List.exists_cons_of_ne_nil hrest
  have hcells := cells_of_memcpy ha
  rw [List.take_zero, List.nil_append, hx] at hcells
  have hcells' := cells_of_store ha'
  rw [hcells, List.set_append_right _ _ (Nat.le_of_eq hlen), hlen, Nat.sub_self,
    List.set_cons_zero, List.append_assoc] at hcells'
  have hzero : (0 : UInt8) ∉ copied := fun h => zero_not_mem_cstr src (List.mem_of_mem_take h)
  refine ⟨a, a', ha, ha', ?_⟩
  -- the first zero is one of the padding, or the one stored last
  have hfirst : zeros ++ 0 :: rest = 0 :: (zeros ++ rest) := by
    rw [← List.singleton_append, ← List.append_assoc, ← List.replicate_succ', List.replicate_succ]
    rfl
  rw [hfirst] at hcells'
  exact str_of_cells hcells' hzero

end CArray

end CMem
