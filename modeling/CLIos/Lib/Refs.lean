import Mathlib.Logic.Function.Basic

/-!
# A table of references

`ref` stores a value under a key that is free, and `unref` frees a key that is in
use, which may then be given to somebody else.  Neither has a defined effect
otherwise: who keeps the free keys in a list must not enter one twice.  `Matched`
compares the table with what its users believe: each holds a key with its own value,
no key is held by two, and nothing is stored that nobody holds.  It is kept by
whoever takes a free key and by whoever gives back the key that it holds.
-/

namespace Refs

abbrev Table (α : Type) := Nat → Option α

variable {α ι : Type}

def Table.ref (T : Table α) (r : Nat) (v : α) : Option (Table α) :=
  if (T r).isSome then none else some (Function.update T r (some v))

def Table.unref (T : Table α) (r : Nat) : Option (Table α) :=
  if (T r).isNone then none else some (Function.update T r none)

theorem Table.ref_eq_some {T T' : Table α} {r : Nat} {v : α} (h : T.ref r v = some T') :
    T r = none ∧ ∀ k, T' k = if k = r then some v else T k := by
  obtain ⟨hfree, h⟩ := Option.ite_none_left_eq_some.mp h
  obtain rfl := Option.some.inj h
  exact ⟨Option.not_isSome_iff_eq_none.mp hfree, Function.update_apply T r (some v)⟩

theorem Table.unref_eq_some {T T' : Table α} {r : Nat} (h : T.unref r = some T') :
    ∀ k, T' k = if k = r then none else T k := by
  obtain ⟨-, h⟩ := Option.ite_none_left_eq_some.mp h
  obtain rfl := Option.some.inj h
  exact Function.update_apply T r none

theorem Table.exists_unref {T : Table α} {r : Nat} {v : α} (h : T r = some v) :
    ∃ T', T.unref r = some T' := ⟨_, if_neg (by simp [h])⟩

structure Matched (T : Table α) (holds : ι → Option (Nat × α)) : Prop where
  stored : ∀ i r v, holds i = some (r, v) → T r = some v
  unshared : ∀ i j r v w, holds i = some (r, v) → holds j = some (r, w) → i = j
  held : ∀ r v, T r = some v → ∃ i, holds i = some (r, v)

variable {T T' : Table α} {holds : ι → Option (Nat × α)}

theorem matched_empty : Matched (fun _ => none : Table α) (fun _ : ι => none) where
  stored := fun i r v hi => by cases hi
  unshared := fun i j r v w hi => by cases hi
  held := fun r v hr => by cases hr

theorem Matched.congr {holds' : ι → Option (Nat × α)} (h : Matched T holds)
    (hsame : ∀ i, holds' i = holds i) : Matched T holds' := by
  obtain rfl : holds' = holds := funext hsame
  exact h

variable [DecidableEq ι] {i : ι}

/-- `i`, which holds nothing, takes a free key. -/
theorem Matched.ref (h : Matched T holds) {r : Nat} {v : α} (hi : holds i = none)
    (hT : T.ref r v = some T') : Matched T' (Function.update holds i (some (r, v))) := by
  obtain ⟨hfree, hT'⟩ := Table.ref_eq_some hT
  have hnot : ∀ j w, holds j ≠ some (r, w) := fun j w hj => by
    cases hfree.symm.trans (h.stored j r w hj)
  refine ⟨fun j k w hj => ?_, fun j j' k w w' hj hj' => ?_, fun k w hk => ?_⟩
  · rw [Function.update_apply] at hj
    rw [hT']
    split at hj
    · cases hj
      exact if_pos rfl
    · have hkr : k ≠ r := by
        rintro rfl
        exact hnot j w hj
      rw [if_neg hkr]
      exact h.stored j k w hj
  · rw [Function.update_apply] at hj hj'
    split at hj <;> split at hj'
    · next hji hji' => rw [hji, hji']
    · cases hj
      exact absurd hj' (hnot j' w')
    · cases hj'
      exact absurd hj (hnot j w)
    · exact h.unshared j j' k w w' hj hj'
  · rw [hT'] at hk
    split at hk
    · next hkr =>
      cases hk
      exact ⟨i, by rw [Function.update_self, hkr]⟩
    · obtain ⟨j, hj⟩ := h.held k w hk
      have hji : j ≠ i := by
        rintro rfl
        cases hi.symm.trans hj
      exact ⟨j, by rw [Function.update_of_ne hji, hj]⟩

/-- `i` gives back its key. -/
theorem Matched.unref (h : Matched T holds) {r : Nat} {v : α} (hi : holds i = some (r, v))
    (hT : T.unref r = some T') : Matched T' (Function.update holds i none) := by
  have hT' := Table.unref_eq_some hT
  refine ⟨fun j k w hj => ?_, fun j j' k w w' hj hj' => ?_, fun k w hk => ?_⟩
  · rw [Function.update_apply] at hj
    split at hj
    · cases hj
    · next hji =>
      have hkr : k ≠ r := by
        rintro rfl
        exact hji (h.unshared j i k w v hj hi)
      rw [hT', if_neg hkr]
      exact h.stored j k w hj
  · rw [Function.update_apply] at hj hj'
    split at hj <;> split at hj'
    · cases hj
    · cases hj
    · cases hj'
    · exact h.unshared j j' k w w' hj hj'
  · rw [hT'] at hk
    split at hk
    · cases hk
    · next hkr =>
      obtain ⟨j, hj⟩ := h.held k w hk
      have hji : j ≠ i := by
        rintro rfl
        rw [hi] at hj
        cases hj
        exact hkr rfl
      exact ⟨j, by rw [Function.update_of_ne hji, hj]⟩

end Refs
