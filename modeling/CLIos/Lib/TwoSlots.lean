import Mathlib.Tactic.Common

/-!
# Two slots, one writer and one reader

The writer fills the slot that is not active, in as many steps as it likes, and
then makes it the active one: that ends a publication.  The reader loads which
slot is active and looks at that slot for a while, without a lock: its window.

`Kept` is what this arrangement is good for.  As long as the steps made in the
window all belong to one publication, the reader's slot stays as it was at the
load: either that publication has not ended, and goes to the other slot, or it
has ended, and the next one has not begun.  With two publications in the window
the second goes to the reader's slot.
-/

namespace TwoSlots

variable {α : Type}

structure Window (α : Type) where
  slot : Bool
  /-- what the slot held when it was loaded -/
  content : α
  /-- the publications that had a step since, by their numbers -/
  touched : List Nat

structure Slots (α : Type) where
  slot : Bool → α
  active : Bool
  /-- the number of publications ended, and so the number of the one at work -/
  ended : Nat
  window : Option (Window α)

/-- At most one publication had a step. -/
def AtMostOne (touched : List Nat) : Prop := ∀ m ∈ touched, ∀ n ∈ touched, m = n

theorem AtMostOne.of_concat {touched : List Nat} {n : Nat} (h : AtMostOne (touched ++ [n])) :
    AtMostOne touched ∧ ∀ m ∈ touched, m = n :=
  ⟨fun k hk m hm => h k (List.mem_append_left _ hk) m (List.mem_append_left _ hm),
    fun m hm => h m (List.mem_append_left _ hm) n (List.mem_append_right _ (List.mem_singleton_self n))⟩

def Window.touch (w : Window α) (n : Nat) : Window α := { w with touched := w.touched ++ [n] }

namespace Slots

/-- A step of a publication: the slot that is not active now holds `x`. -/
def write (s : Slots α) (x : α) : Slots α :=
  { s with
    slot := fun i => if i = !s.active then x else s.slot i
    window := s.window.map fun w => w.touch s.ended }

/-- The last step of a publication. -/
def flip (s : Slots α) : Slots α :=
  { s with
    active := !s.active
    ended := s.ended + 1
    window := s.window.map fun w => w.touch s.ended }

def load (s : Slots α) : Slots α :=
  { s with window := some ⟨s.active, s.slot s.active, []⟩ }

def release (s : Slots α) : Slots α := { s with window := none }

/-- The reader's slot is as it was, and if it is no longer the active one, the
publication that changed this is in the window. -/
def Kept (s : Slots α) : Prop :=
  ∀ w, s.window = some w → AtMostOne w.touched →
    s.slot w.slot = w.content ∧ (w.slot ≠ s.active → ∃ n ∈ w.touched, n < s.ended)

theorem kept_of_no_window {s : Slots α} (h : s.window = none) : s.Kept := by
  intro w hw
  rw [h] at hw
  cases hw

theorem Kept.write {s : Slots α} (h : s.Kept) (x : α) : (s.write x).Kept := by
  intro w' hw' hone
  obtain ⟨w, hw, rfl⟩ := Option.map_eq_some_iff.mp hw'
  obtain ⟨hone, hall⟩ := AtMostOne.of_concat hone
  obtain ⟨hslot, hflip⟩ := h w hw hone
  -- a window on the other slot has seen an earlier publication
  have hactive : w.slot = s.active := by
    by_contra hne
    obtain ⟨n, hn, hlt⟩ := hflip hne
    have := hall n hn
    omega
  refine ⟨?_, fun hne => absurd hactive hne⟩
  show (if w.slot = !s.active then x else s.slot w.slot) = w.content
  rw [if_neg (by rw [hactive]; simp), hslot]

theorem Kept.flip {s : Slots α} (h : s.Kept) : s.flip.Kept := by
  intro w' hw' hone
  obtain ⟨w, hw, rfl⟩ := Option.map_eq_some_iff.mp hw'
  obtain ⟨hone, -⟩ := AtMostOne.of_concat hone
  refine ⟨(h w hw hone).1, fun _ => ⟨s.ended, ?_, Nat.lt_succ_self _⟩⟩
  exact List.mem_append_right _ (List.mem_singleton_self _)

theorem kept_load (s : Slots α) : s.load.Kept := by
  intro w hw _
  obtain rfl := Option.some.inj hw
  exact ⟨rfl, fun hne => absurd rfl hne⟩

/-- One step of the writer or the reader, or none. -/
inductive Move (s : Slots α) : Slots α → Prop
  | same : Move s s
  | write (x : α) : Move s (s.write x)
  | flip : Move s s.flip
  | load : Move s s.load
  | release : Move s s.release

theorem Kept.move {s s' : Slots α} (h : s.Kept) (hm : Move s s') : s'.Kept := by
  cases hm with
  | same => exact h
  | write x => exact h.write x
  | flip => exact h.flip
  | load => exact s.kept_load
  | release => exact kept_of_no_window rfl

end Slots

end TwoSlots
