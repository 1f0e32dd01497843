import Mathlib.Data.List.Basic
import Mathlib.Tactic.Common

/-!
# C arrays and 8-bit loops

A `CArray α n` is a block of `n` cells.  Reads and writes are checked: an access
outside the block has no defined effect and is `none`.  `memcpy` writes a list of
cells at an offset; `first k` is the contents of the first `k` cells.

`loop8` is a `for` loop whose counter is an unsigned byte: the counter wraps at
256, and a loop that does not end within 256 rounds never ends (`none`).
-/

namespace CMem

structure CArray (α : Type) (n : Nat) where
  cells : List α
  size : cells.length = n
deriving DecidableEq

namespace CArray

variable {α : Type} {n : Nat}

/-- A block whose cells all hold `x`. -/
def fill (n : Nat) (x : α) : CArray α n := ⟨List.replicate n x, List.length_replicate⟩

def load (a : CArray α n) (i : Nat) : Option α := a.cells[i]?

def store (a : CArray α n) (i : Nat) (x : α) : Option (CArray α n) :=
  if i < n then some ⟨a.cells.set i x, by rw [List.length_set, a.size]⟩ else none

def memcpy (a : CArray α n) (off : Nat) (src : List α) : Option (CArray α n) :=
  if h : off + src.length ≤ n then
    some ⟨a.cells.take off ++ src ++ a.cells.drop (off + src.length), by
      have := a.size
      simp only [List.length_append, List.length_take, List.length_drop]
      omega⟩
  else none

def first (a : CArray α n) (k : Nat) : List α := a.cells.take k

/-- The first `k` cells, read by a callee that is given the block. -/
def read (a : CArray α n) (k : Nat) : Option (List α) := if k ≤ n then some (a.first k) else none

/-! ## Loads and stores -/

theorem load_eq_some (a : CArray α n) (i : Nat) (h : i < n) : ∃ x, a.load i = some x := by
  have hi : i < a.cells.length := by rw [a.size]; exact h
  exact ⟨a.cells[i], List.getElem?_eq_getElem hi⟩

theorem load_lt {a : CArray α n} {i : Nat} {x : α} (h : a.load i = some x) : i < n := by
  have hi := (List.getElem?_eq_some_iff.mp h).1
  rwa [a.size] at hi

theorem store_eq_some (a : CArray α n) (i : Nat) (x : α) (h : i < n) :
    ∃ a', a.store i x = some a' := by
  simp [store, h]

theorem store_lt {a a' : CArray α n} {i : Nat} {x : α} (h : a.store i x = some a') : i < n := by
  unfold store at h
  split at h
  · assumption
  · cases h

theorem cells_of_store {a a' : CArray α n} {i : Nat} {x : α} (h : a.store i x = some a') :
    a'.cells = a.cells.set i x := by
  unfold store at h
  split at h
  · cases h; rfl
  · cases h

theorem load_store_self {a a' : CArray α n} {i : Nat} {x : α} (h : a.store i x = some a') :
    a'.load i = some x := by
  have hi := store_lt h
  unfold load
  rw [cells_of_store h, List.getElem?_set_self (by rw [a.size]; exact hi)]

theorem load_store_ne {a a' : CArray α n} {i j : Nat} {x : α} (h : a.store i x = some a')
    (hij : i ≠ j) : a'.load j = a.load j := by
  unfold load
  rw [cells_of_store h, List.getElem?_set_ne hij]

/-! ## The first cells -/

@[simp] theorem first_zero (a : CArray α n) : a.first 0 = [] := List.take_zero

theorem length_first (a : CArray α n) (k : Nat) (h : k ≤ n) : (a.first k).length = k := by
  rw [first, List.length_take, a.size, Nat.min_eq_left h]

theorem getElem?_first (a : CArray α n) (k i : Nat) (h : i < k) : (a.first k)[i]? = a.load i := by
  rw [first, List.getElem?_take_of_lt h]
  rfl

theorem first_succ (a : CArray α n) {k : Nat} {x : α} (h : a.load k = some x) :
    a.first (k + 1) = a.first k ++ [x] := by
  unfold load at h
  unfold first
  rw [List.take_add_one, h]
  rfl

theorem first_store_of_le {a a' : CArray α n} {i k : Nat} {x : α} (h : a.store i x = some a')
    (hk : k ≤ i) : a'.first k = a.first k := by
  unfold first
  rw [cells_of_store h, List.take_set_of_le hk]

/-- Appending one cell: a store right after the first `k` cells. -/
theorem first_store_succ {a a' : CArray α n} {k : Nat} {x : α} (h : a.store k x = some a') :
    a'.first (k + 1) = a.first k ++ [x] := by
  rw [first_succ a' (load_store_self h), first_store_of_le h (Nat.le_refl k)]

/-- A store among the first `k` cells. -/
theorem first_store_of_lt {a a' : CArray α n} {i k : Nat} {x : α} (h : a.store i x = some a') :
    a'.first k = (a.first k).set i x := by
  unfold first
  rw [cells_of_store h, List.take_set]

theorem mem_first_iff (a : CArray α n) (k : Nat) (x : α) :
    x ∈ a.first k ↔ ∃ i, i < k ∧ a.load i = some x := by
  rw [List.mem_iff_getElem?]
  constructor
  · rintro ⟨i, hi⟩
    have hik : i < k := by
      have := (List.getElem?_eq_some_iff.mp hi).1
      simp only [first, List.length_take] at this
      omega
    exact ⟨i, hik, by rwa [← getElem?_first a k i hik]⟩
  · rintro ⟨i, hik, hi⟩
    exact ⟨i, by rwa [getElem?_first a k i hik]⟩

/-! ## memcpy -/

theorem memcpy_eq_some_iff (a : CArray α n) (off : Nat) (src : List α) :
    (∃ a', a.memcpy off src = some a') ↔ off + src.length ≤ n := by
  unfold memcpy
  split <;> simp_all

theorem memcpy_le {a a' : CArray α n} {off : Nat} {src : List α}
    (h : a.memcpy off src = some a') : off + src.length ≤ n :=
  (memcpy_eq_some_iff a off src).mp ⟨a', h⟩

theorem cells_of_memcpy {a a' : CArray α n} {off : Nat} {src : List α}
    (h : a.memcpy off src = some a') :
    a'.cells = a.cells.take off ++ src ++ a.cells.drop (off + src.length) := by
  unfold memcpy at h
  split at h
  · cases h; rfl
  · cases h

/-- Appending a block: a copy right after the first `off` cells. -/
theorem first_memcpy {a a' : CArray α n} {off : Nat} {src : List α}
    (h : a.memcpy off src = some a') : a'.first (off + src.length) = a.first off ++ src := by
  have hle := memcpy_le h
  have hlen : (a.cells.take off ++ src).length = off + src.length := by
    rw [List.length_append, List.length_take, a.size]
    omega
  unfold first
  rw [cells_of_memcpy h, List.take_append_of_le_length (by omega), ← hlen, List.take_length]

theorem load_memcpy_zero {a a' : CArray α n} {src : List α} (h : a.memcpy 0 src = some a')
    (i : Nat) : a'.load i = if i < src.length then src[i]? else a.load i := by
  unfold load
  rw [cells_of_memcpy h, List.take_zero, List.nil_append, Nat.zero_add]
  split
  · next hi => rw [List.getElem?_append_left hi]
  · next hi =>
    rw [List.getElem?_append_right (by omega), List.getElem?_drop]
    congr 1
    omega

theorem ext_load {a b : CArray α n} (h : ∀ i, a.load i = b.load i) : a = b := by
  obtain ⟨cells, size⟩ := a
  obtain ⟨cells', size'⟩ := b
  obtain rfl : cells = cells' := List.ext_getElem? h
  rfl

theorem memcpy_nil (a : CArray α n) : a.memcpy 0 [] = some a := by
  obtain ⟨b, hb⟩ := (memcpy_eq_some_iff a 0 []).mpr (Nat.zero_le n)
  rw [hb]
  refine congrArg some (ext_load fun i => ?_)
  rw [load_memcpy_zero hb]
  exact if_neg (Nat.not_lt_zero i)

/-- A copy is its bytes stored one after the other. -/
theorem store_memcpy_take {a a₁ : CArray α n} {src : List α} {k : Nat} {x : α}
    (h : a.memcpy 0 (src.take k) = some a₁) (hx : src[k]? = some x) (hk : k < n) :
    a₁.store k x = a.memcpy 0 (src.take (k + 1)) := by
  have hklen : k < src.length := (List.getElem?_eq_some_iff.mp hx).1
  have hlen : (src.take k).length = k := by rw [List.length_take]; omega
  have hlen' : (src.take (k + 1)).length = k + 1 := by rw [List.length_take]; omega
  obtain ⟨a₂, h₂⟩ := store_eq_some a₁ k x hk
  obtain ⟨a₃, h₃⟩ := (memcpy_eq_some_iff a 0 (src.take (k + 1))).mpr (by omega)
  rw [h₂, h₃]
  congr 1
  refine ext_load fun i => ?_
  rw [load_memcpy_zero h₃, hlen']
  rcases Nat.lt_trichotomy i k with hlt | rfl | hgt
  · rw [load_store_ne h₂ (by omega), load_memcpy_zero h, hlen, if_pos hlt, if_pos (by omega),
      List.getElem?_take_of_lt hlt, List.getElem?_take_of_lt (by omega)]
  · rw [load_store_self h₂, if_pos (by omega), List.getElem?_take_of_lt (by omega), hx]
  · rw [load_store_ne h₂ (by omega), load_memcpy_zero h, hlen, if_neg (by omega),
      if_neg (by omega)]

/-! ## Cell by cell -/

/-- What a function makes of each cell. -/
def map {β : Type} (f : α → β) (a : CArray α n) : CArray β n :=
  ⟨a.cells.map f, (List.length_map f).trans a.size⟩

theorem load_map {β : Type} (f : α → β) (a : CArray α n) (i : Nat) :
    (a.map f).load i = (a.load i).map f := List.getElem?_map

theorem store_map {β : Type} (f : α → β) {a a' : CArray α n} {i : Nat} {x : α}
    (h : a.store i x = some a') : (a.map f).store i (f x) = some (a'.map f) := by
  obtain ⟨b, hb⟩ := (a.map f).store_eq_some i (f x) (store_lt h)
  rw [hb]
  refine congrArg some (ext_load fun j => ?_)
  rw [load_map]
  by_cases hij : i = j
  · subst hij
    rw [load_store_self hb, load_store_self h]
    rfl
  · rw [load_store_ne hb hij, load_store_ne h hij, load_map]

theorem first_map {β : Type} (f : α → β) (a : CArray α n) (k : Nat) :
    (a.map f).first k = (a.first k).map f := List.map_take.symm

end CArray

/-! ## Undefined effects -/

/-- What a call may do: its one result, or anything where it has no defined effect. -/
def Allows {α : Type} (o : Option α) (r : α) : Prop := ∀ r', o = some r' → r = r'

theorem allows_none {α : Type} (r : α) : Allows none r := by
  intro r' h
  cases h

theorem allows_some_iff {α : Type} (r r' : α) : Allows (some r') r ↔ r = r' := by
  constructor
  · exact fun h => h r' rfl
  · rintro rfl r' h
    exact Option.some.inj h

/-! ## Loops over an unsigned byte -/

/-- `for (; test(i); i++) body(i)` with `uint8_t i`, for at most `fuel` rounds. -/
def loopGo {σ : Type} (test : Nat → Bool) (body : Nat → σ → Option σ) : Nat → Nat → σ → Option σ
  | 0, _, _ => none
  | fuel + 1, i, s =>
    if test i then (body i s).bind (loopGo test body fuel ((i + 1) % 256)) else some s

def loop8 {σ : Type} (test : Nat → Bool) (body : Nat → σ → Option σ) (i : Nat) (s : σ) : Option σ :=
  loopGo test body 257 i s

/-- The first round of a loop with test `i < hi`, and the loop from there on. -/
theorem loop8_step {σ : Type} (hi : Nat) (body : Nat → σ → Option σ) (i : Nat) (s : σ) :
    loop8 (fun i => decide (i < hi)) body i s =
      if i < hi then (body i s).bind (loop8 (fun i => decide (i < hi)) body ((i + 1) % 256))
      else some s := by
  -- one round of fuel more changes nothing: the loop has ended, or never ends
  have hended : hi ≤ 255 → ∀ (fuel j : Nat) (s : σ), hi - j < fuel →
      loopGo (fun i => decide (i < hi)) body fuel j s =
        loopGo (fun i => decide (i < hi)) body (fuel + 1) j s := by
    intro hhi fuel
    induction fuel with
    | zero => intro j s h; omega
    | succ fuel ih =>
      intro j s h
      rw [loopGo, loopGo]
      split
      · next hj =>
        have hlt : j < hi := of_decide_eq_true hj
        rw [Nat.mod_eq_of_lt (show j + 1 < 256 by omega)]
        refine congrArg (Option.bind (body j s)) (funext fun s' => ih (j + 1) s' ?_)
        omega
      · rfl
  have hnever : 256 ≤ hi → ∀ (fuel j : Nat) (s : σ), j < 256 →
      loopGo (fun i => decide (i < hi)) body fuel j s = none := by
    intro hhi fuel
    induction fuel with
    | zero => exact fun j s _ => rfl
    | succ fuel ih =>
      intro j s hj
      rw [loopGo, if_pos (decide_eq_true (show j < hi by omega))]
      cases body j s with
      | none => rfl
      | some s' => exact ih _ s' (Nat.mod_lt _ (by omega))
  unfold loop8
  rw [loopGo]
  by_cases hi' : i < hi
  · rw [if_pos (decide_eq_true hi'), if_pos hi']
    refine congrArg (Option.bind (body i s)) (funext fun s' => ?_)
    by_cases hhi : hi ≤ 255
    · exact hended hhi 256 _ s' (by omega)
    · have hj : (i + 1) % 256 < 256 := Nat.mod_lt _ (by omega)
      rw [hnever (by omega) 256 _ s' hj, hnever (by omega) 257 _ s' hj]
  · rw [if_neg (by simpa using hi'), if_neg hi']

/-- A loop with test `i < hi`, `hi` itself a byte, keeps its counter below 256
and ends: its result satisfies what every round keeps. -/
theorem loopGo_spec {σ : Type} (I : Nat → σ → Prop) (test : Nat → Bool)
    (body : Nat → σ → Option σ) (hi : Nat) (hhi : hi ≤ 255) (htest : ∀ i, test i = true ↔ i < hi)
    (hbody : ∀ i s, i < hi → I i s → ∃ s', body i s = some s' ∧ I (i + 1) s') :
    ∀ (fuel i : Nat) (s : σ), hi - i < fuel → i ≤ hi → I i s →
      ∃ s', loopGo test body fuel i s = some s' ∧ I hi s' := by
  intro fuel
  induction fuel with
  | zero => intro i s h; omega
  | succ fuel ih =>
    intro i s hfuel hle hI
    unfold loopGo
    by_cases hlt : i < hi
    · obtain ⟨s₁, h₁, hI₁⟩ := hbody i s hlt hI
      obtain ⟨s', h', hI'⟩ := ih (i + 1) s₁ (by omega) (by omega) hI₁
      refine ⟨s', ?_, hI'⟩
      rw [if_pos ((htest i).mpr hlt), h₁, Nat.mod_eq_of_lt (by omega)]
      exact h'
    · rw [if_neg (fun h => hlt ((htest i).mp h))]
      have : i = hi := by omega
      exact ⟨s, rfl, this ▸ hI⟩

theorem loop8_spec {σ : Type} (I : Nat → σ → Prop) (test : Nat → Bool) (body : Nat → σ → Option σ)
    (lo hi : Nat) (hhi : hi ≤ 255) (hlo : lo ≤ hi) (htest : ∀ i, test i = true ↔ i < hi)
    (hbody : ∀ i s, i < hi → I i s → ∃ s', body i s = some s' ∧ I (i + 1) s') (s : σ)
    (hI : I lo s) : ∃ s', loop8 test body lo s = some s' ∧ I hi s' :=
  loopGo_spec I test body hi hhi htest hbody 257 lo s (by omega) hlo hI

/-! ## Counters that do not wrap -/

/-- `n + 1` where an unsigned byte holds it. -/
def succ8 (n : Nat) : Option Nat := if n < 255 then some (n + 1) else none

/-- `n - 1` where an unsigned byte holds it. -/
def pred8 (n : Nat) : Option Nat := if 0 < n then some (n - 1) else none

theorem succ8_eq {n : Nat} (h : n < 255) : succ8 n = some ((n + 1) % 256) := by
  rw [Nat.mod_eq_of_lt (by omega)]
  exact if_pos h

theorem pred8_eq {n : Nat} (h : 0 < n) : pred8 n = some (n - 1) := if_pos h

/-- The loop where its counter may not wrap. -/
def strictGo {σ : Type} (test : Nat → Bool) (body : Nat → σ → Option σ) : Nat → Nat → σ → Option σ
  | 0, _, _ => none
  | fuel + 1, i, s =>
    if test i then
      (body i s).bind fun s => (succ8 i).bind fun i => strictGo test body fuel i s
    else some s

def strictLoop8 {σ : Type} (test : Nat → Bool) (body : Nat → σ → Option σ) (i : Nat) (s : σ) :
    Option σ :=
  strictGo test body 257 i s

/-- A body that only gets through below 255 does not let the counter wrap. -/
theorem strictLoop8_eq {σ : Type} (test : Nat → Bool) (body : Nat → σ → Option σ)
    (h : ∀ i s s', body i s = some s' → i < 255) (i : Nat) (s : σ) :
    strictLoop8 test body i s = loop8 test body i s := by
  have hgo : ∀ fuel i s, strictGo test body fuel i s = loopGo test body fuel i s := by
    intro fuel
    induction fuel with
    | zero => exact fun i s => rfl
    | succ fuel ih =>
      intro i s
      unfold strictGo loopGo
      cases hb : body i s with
      | none => rfl
      | some s' =>
        simp only [Option.bind_some, succ8_eq (h i s s' hb), ih]
  exact hgo 257 i s

/-- A loop over concrete states runs as the one over what `f` sees of them, if the
rounds do and keep an invariant. -/
theorem strictLoop8_map {σ τ : Type} (f : σ → τ) (I : Nat → σ → Prop) {test : Nat → Bool}
    {body : Nat → σ → Option σ} {body' : Nat → τ → Option τ}
    (hbody : ∀ i s, test i = true → I i s →
      ∃ s', body i s = some s' ∧ body' i (f s) = some (f s') ∧ I (i + 1) s')
    {i : Nat} {s : σ} {t : τ} (hI : I i s) (h : strictLoop8 test body' i (f s) = some t) :
    ∃ j s', strictLoop8 test body i s = some s' ∧ f s' = t ∧ test j = false ∧ I j s' := by
  have hgo : ∀ fuel i s, I i s → strictGo test body' fuel i (f s) = some t →
      ∃ j s', strictGo test body fuel i s = some s' ∧ f s' = t ∧ test j = false ∧ I j s' := by
    intro fuel
    induction fuel with
    | zero => exact fun i s _ h => by cases h
    | succ fuel ih =>
      intro i s hI h
      unfold strictGo at h ⊢
      cases htest : test i with
      | true =>
        obtain ⟨s', hs', ht', hI'⟩ := hbody i s htest hI
        rw [htest, if_pos rfl, ht', Option.bind_some] at h
        obtain ⟨j, hj, h⟩ := Option.bind_eq_some_iff.mp h
        rw [if_pos rfl, hs', Option.bind_some, hj, Option.bind_some]
        have hsucc : j = i + 1 := by
          unfold succ8 at hj
          split at hj <;> cases hj
          rfl
        subst hsucc
        exact ih (i + 1) s' hI' h
      | false =>
        rw [htest] at h
        exact ⟨i, s, rfl, Option.some.inj h, htest, hI⟩
  exact hgo 257 i s hI h

end CMem
