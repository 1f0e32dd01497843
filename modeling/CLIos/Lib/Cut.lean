import Mathlib.Data.List.Infix
import Mathlib.Data.List.Induction

/-!
# A list cut where a test says so

Elements come one after another and are kept until the test `ends` says that
those kept are whole; then they are a piece, and the next one begins.  The
pieces are the only way to divide the list into parts that end where they first
can (`isCut_iff`), and more elements only add pieces (`closed_mono`).
-/

namespace Cut

variable {α : Type}

structure Pieces (α : Type) where
  closed : List (List α)
  /-- what is kept for the next piece -/
  rest : List α

def Pieces.add (ends : List α → Bool) (p : Pieces α) (a : α) : Pieces α :=
  if ends (p.rest ++ [a]) then ⟨p.closed ++ [p.rest ++ [a]], []⟩
  else ⟨p.closed, p.rest ++ [a]⟩

def cut (ends : List α → Bool) (as : List α) : Pieces α := as.foldl (Pieces.add ends) ⟨[], []⟩

variable (ends : List α → Bool)

theorem cut_concat (as : List α) (a : α) : cut ends (as ++ [a]) = (cut ends as).add ends a := by
  rw [cut, List.foldl_append]
  rfl

theorem closed_concat (as : List α) (a : α) :
    (cut ends (as ++ [a])).closed = (cut ends as).closed ++
      if ends ((cut ends as).rest ++ [a]) then [(cut ends as).rest ++ [a]] else [] := by
  rw [cut_concat, Pieces.add]
  split
  · rfl
  · exact (List.append_nil _).symm

theorem rest_concat (as : List α) (a : α) :
    (cut ends (as ++ [a])).rest =
      if ends ((cut ends as).rest ++ [a]) then [] else (cut ends as).rest ++ [a] := by
  rw [cut_concat, Pieces.add]
  split <;> rfl

/-- More elements add pieces. -/
theorem closed_mono {as bs : List α} (h : as <+: bs) :
    (cut ends as).closed <+: (cut ends bs).closed := by
  obtain ⟨cs, rfl⟩ := h
  induction cs using List.reverseRecOn with
  | nil => rw [List.append_nil]
  | append_singleton cs c ih =>
    rw [← List.append_assoc, closed_concat]
    exact ih.trans (List.prefix_append _ _)

/-! ## What the pieces are -/

/-- Nothing that begins the list is whole. -/
def Unfinished (l : List α) : Prop := ∀ q, q <+: l → q ≠ [] → ends q = false

/-- The list is whole, and was not before its last element. -/
def Whole (l : List α) : Prop := ∃ q a, l = q ++ [a] ∧ Unfinished ends q ∧ ends l = true

structure IsCut (as : List α) (p : Pieces α) : Prop where
  flatten : p.closed.flatten ++ p.rest = as
  closed : ∀ g ∈ p.closed, Whole ends g
  rest : Unfinished ends p.rest

variable {ends}

theorem unfinished_nil : Unfinished ends ([] : List α) :=
  fun _ hq hne => absurd (List.prefix_nil.mp hq) hne

theorem Unfinished.concat {l : List α} {a : α} (h : Unfinished ends l)
    (ha : ends (l ++ [a]) = false) : Unfinished ends (l ++ [a]) := by
  intro q hq hne
  rcases List.prefix_concat_iff.mp hq with rfl | hq
  · exact ha
  · exact h q hq hne

theorem isCut_cut (as : List α) : IsCut ends as (cut ends as) := by
  induction as using List.reverseRecOn with
  | nil => exact ⟨rfl, fun _ hg => absurd hg List.not_mem_nil, unfinished_nil⟩
  | append_singleton as a ih =>
    rw [cut_concat, Pieces.add]
    split
    · next hends =>
      refine ⟨?_, fun g hg => ?_, unfinished_nil⟩
      · rw [List.flatten_concat, List.append_nil, ← List.append_assoc, ih.flatten]
      · rcases List.mem_append.mp hg with hg | hg
        · exact ih.closed g hg
        · rw [List.mem_singleton.mp hg]
          exact ⟨_, a, rfl, ih.rest, hends⟩
    · next hends =>
      refine ⟨?_, ih.closed, ih.rest.concat (Bool.eq_false_iff.mpr hends)⟩
      rw [← List.append_assoc, ih.flatten]

/-- A piece, taken in, is a piece. -/
theorem foldl_unfinished {p : Pieces α} (hp : p.rest = []) {l : List α} (h : Unfinished ends l) :
    l.foldl (Pieces.add ends) p = ⟨p.closed, l⟩ := by
  induction l using List.reverseRecOn with
  | nil => rw [List.foldl_nil, ← hp]
  | append_singleton l a ih =>
    have hl : Unfinished ends l := fun q hq => h q (hq.trans (List.prefix_append l [a]))
    have hends : ends (l ++ [a]) = false := h _ List.prefix_rfl (by simp)
    rw [List.foldl_append, ih hl, List.foldl_cons, List.foldl_nil, Pieces.add, hends]
    rfl

theorem foldl_whole {p : Pieces α} (hp : p.rest = []) {g : List α} (h : Whole ends g) :
    g.foldl (Pieces.add ends) p = ⟨p.closed ++ [g], []⟩ := by
  obtain ⟨q, a, rfl, hq, hends⟩ := h
  rw [List.foldl_append, foldl_unfinished hp hq, List.foldl_cons, List.foldl_nil, Pieces.add,
    if_pos hends]

theorem foldl_closed {gs : List (List α)} (h : ∀ g ∈ gs, Whole ends g) {p : Pieces α}
    (hp : p.rest = []) : gs.flatten.foldl (Pieces.add ends) p = ⟨p.closed ++ gs, []⟩ := by
  induction gs generalizing p with
  | nil => rw [List.flatten_nil, List.foldl_nil, List.append_nil, ← hp]
  | cons g gs ih =>
    have hg : Whole ends g := h g List.mem_cons_self
    have hgs : ∀ g' ∈ gs, Whole ends g' := fun g' hg' => h g' (List.mem_cons_of_mem g hg')
    rw [List.flatten_cons, List.foldl_append, foldl_whole hp hg, ih hgs rfl, List.append_assoc,
      List.singleton_append]

/-- There is one way to cut. -/
theorem isCut_iff {as : List α} {p : Pieces α} : IsCut ends as p ↔ p = cut ends as := by
  constructor
  · intro h
    rw [cut, ← h.flatten, List.foldl_append, foldl_closed h.closed rfl, List.nil_append,
      foldl_unfinished rfl h.rest]
  · rintro rfl
    exact isCut_cut as

end Cut
