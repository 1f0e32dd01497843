import Mathlib.Data.List.Induction
import Mathlib.Tactic.Common

/-!
# Runs between separators

A stream is read against a predicate `p` that says which letters separate.

* `closedRuns p l`: the non-empty maximal runs of other letters that a
  separator closes, in order.
* `openRun p l`: the run after the last separator, not closed yet.

Both are computed letter by letter (`closedRuns_concat_sep`, `openRun_concat`),
and a separator inside the stream cuts the computation in two
(`closedRuns_append_cons`, `openRun_append_cons`).
-/

namespace Text

variable {α : Type} (p : α → Bool)

def closedRuns (l : List α) : List (List α) :=
  (l.splitOnP p).dropLast.filter fun r => !r.isEmpty

def openRun (l : List α) : List α := (l.splitOnP p).getLastD []

@[simp] theorem closedRuns_nil : closedRuns p [] = [] := rfl

@[simp] theorem openRun_nil : openRun p [] = [] := rfl

theorem dropLast_concat_openRun (l : List α) :
    (l.splitOnP p).dropLast ++ [openRun p l] = l.splitOnP p := by
  have hne := List.splitOnP_ne_nil p l
  unfold openRun
  rw [List.getLastD_eq_getLast?, List.getLast?_eq_some_getLast hne]
  exact List.dropLast_concat_getLast hne

variable {p}

/-! ## A separator in the stream -/

theorem closedRuns_append_cons (l v : List α) {c : α} (hc : p c = true) :
    closedRuns p (l ++ c :: v) = closedRuns p (l ++ [c]) ++ closedRuns p v := by
  unfold closedRuns
  rw [List.splitOnP_append_cons l v hc, List.splitOnP_append_cons l [] hc,
    List.dropLast_append_of_ne_nil (List.splitOnP_ne_nil p v)]
  simp

theorem openRun_append_cons (l v : List α) {c : α} (hc : p c = true) :
    openRun p (l ++ c :: v) = openRun p v := by
  have hne := List.splitOnP_ne_nil p v
  unfold openRun
  rw [List.splitOnP_append_cons l v hc, List.getLastD_eq_getLast?, List.getLastD_eq_getLast?,
    List.getLast?_append, List.getLast?_eq_some_getLast hne]
  rfl

/-! ## One letter more -/

theorem closedRuns_concat_sep (l : List α) {c : α} (hc : p c = true) :
    closedRuns p (l ++ [c]) =
      closedRuns p l ++ (if openRun p l = [] then [] else [openRun p l]) := by
  unfold closedRuns
  rw [List.splitOnP_append_cons l [] hc, List.splitOnP_nil, List.dropLast_concat]
  conv => lhs; rw [← dropLast_concat_openRun p l]
  rw [List.filter_append]
  congr 1
  by_cases h : openRun p l = [] <;> simp [h]

theorem splitOnP_concat_not_sep (l : List α) {c : α} (hc : p c = false) :
    (l ++ [c]).splitOnP p = (l.splitOnP p).dropLast ++ [openRun p l ++ [c]] := by
  induction l with
  | nil => simp [List.splitOnP_cons_eq_if_modifyHead, hc, openRun]
  | cons d l ih =>
    have hne := List.splitOnP_ne_nil p l
    unfold openRun at ih ⊢
    rw [List.cons_append, List.splitOnP_cons_eq_if_modifyHead, ih,
      List.splitOnP_cons_eq_if_modifyHead]
    generalize l.splitOnP p = rs at hne
    cases rs with
    | nil => exact absurd rfl hne
    | cons r rs => cases hd : p d <;> cases rs <;> simp

theorem closedRuns_concat_not_sep (l : List α) {c : α} (hc : p c = false) :
    closedRuns p (l ++ [c]) = closedRuns p l := by
  unfold closedRuns
  rw [splitOnP_concat_not_sep l hc, List.dropLast_concat]

theorem openRun_concat (l : List α) (c : α) :
    openRun p (l ++ [c]) = if p c then [] else openRun p l ++ [c] := by
  cases hc : p c with
  | true =>
    rw [openRun_append_cons l [] hc]
    rfl
  | false =>
    show (List.splitOnP p (l ++ [c])).getLastD [] = openRun p l ++ [c]
    rw [splitOnP_concat_not_sep l hc, List.getLastD_concat]

/-! ## A stretch without separators -/

theorem closedRuns_append_not_sep (l w : List α) (hw : ∀ c ∈ w, p c = false) :
    closedRuns p (l ++ w) = closedRuns p l := by
  induction w using List.reverseRecOn with
  | nil => rw [List.append_nil]
  | append_singleton w c ih =>
    rw [← List.append_assoc, closedRuns_concat_not_sep _ (hw c (by simp))]
    exact ih fun d hd => hw d (by simp [hd])

theorem openRun_append_not_sep (l w : List α) (hw : ∀ c ∈ w, p c = false) :
    openRun p (l ++ w) = openRun p l ++ w := by
  induction w using List.reverseRecOn with
  | nil => rw [List.append_nil, List.append_nil]
  | append_singleton w c ih =>
    rw [← List.append_assoc, openRun_concat, hw c (by simp),
      ih fun d hd => hw d (by simp [hd]), List.append_assoc]
    rfl

theorem not_sep_of_mem_openRun (l : List α) : ∀ c ∈ openRun p l, p c = false := by
  induction l using List.reverseRecOn with
  | nil => simp
  | append_singleton l d ih =>
    rw [openRun_concat]
    cases hd : p d with
    | true => simp
    | false =>
      intro c hc
      rcases List.mem_append.mp hc with hc | hc
      · exact ih c hc
      · rw [List.mem_singleton.mp hc, hd]

theorem not_sep_of_mem_closedRuns (l : List α) :
    ∀ r ∈ closedRuns p l, ∀ c ∈ r, p c = false := by
  induction l using List.reverseRecOn with
  | nil => simp
  | append_singleton l d ih =>
    cases hd : p d with
    | true =>
      rw [closedRuns_concat_sep l hd]
      intro r hr
      rcases List.mem_append.mp hr with hr | hr
      · exact ih r hr
      · split at hr
        · cases hr
        · rw [List.mem_singleton.mp hr]
          exact not_sep_of_mem_openRun l
    | false => rwa [closedRuns_concat_not_sep l hd]

/-! ## Where a run is closed -/

theorem mem_closedRuns_of_openRun (l v : List α) {c : α} (hc : p c = true) {r : List α}
    (hr : openRun p l = r) (hne : r ≠ []) : r ∈ closedRuns p (l ++ c :: v) := by
  rw [closedRuns_append_cons l v hc, closedRuns_concat_sep l hc, hr, if_neg hne]
  simp

theorem exists_of_mem_closedRuns (l : List α) {r : List α} (h : r ∈ closedRuns p l) :
    ∃ u c v, l = u ++ c :: v ∧ p c = true ∧ openRun p u = r := by
  induction l using List.reverseRecOn with
  | nil => cases h
  | append_singleton l d ih =>
    have hold : r ∈ closedRuns p l → ∃ u c v, l ++ [d] = u ++ c :: v ∧ p c = true ∧
        openRun p u = r := by
      intro h
      obtain ⟨u, c, v, rfl, hc, hu⟩ := ih h
      exact ⟨u, c, v ++ [d], by simp, hc, hu⟩
    cases hd : p d with
    | true =>
      rw [closedRuns_concat_sep l hd] at h
      rcases List.mem_append.mp h with h | h
      · exact hold h
      · split at h
        · cases h
        · exact ⟨l, d, [], rfl, hd, (List.mem_singleton.mp h).symm⟩
    | false =>
      rw [closedRuns_concat_not_sep l hd] at h
      exact hold h

/-! ## Streams put together -/

theorem closedRuns_append_of_openRun_nil (l v : List α) (h : openRun p l = []) :
    closedRuns p (l ++ v) = closedRuns p l ++ closedRuns p v ∧
      openRun p (l ++ v) = openRun p v := by
  induction v using List.reverseRecOn with
  | nil => simp [h]
  | append_singleton v c ih =>
    obtain ⟨ihc, iho⟩ := ih
    rw [← List.append_assoc, openRun_concat, openRun_concat, iho]
    refine ⟨?_, rfl⟩
    cases hc : p c with
    | true =>
      rw [closedRuns_concat_sep _ hc, closedRuns_concat_sep _ hc, ihc, iho, List.append_assoc]
    | false => rw [closedRuns_concat_not_sep _ hc, closedRuns_concat_not_sep _ hc, ihc]

theorem closedRuns_mono (l v : List α) : closedRuns p l <+: closedRuns p (l ++ v) := by
  induction v using List.reverseRecOn with
  | nil => simp
  | append_singleton v c ih =>
    rw [← List.append_assoc]
    cases hc : p c with
    | true =>
      rw [closedRuns_concat_sep _ hc]
      exact ih.trans (List.prefix_append _ _)
    | false => rwa [closedRuns_concat_not_sep _ hc]

/-- Separators alone close nothing and leave nothing open. -/
theorem runs_of_all_sep (z : List α) (hz : ∀ c ∈ z, p c = true) :
    closedRuns p z = [] ∧ openRun p z = [] := by
  induction z using List.reverseRecOn with
  | nil => exact ⟨rfl, rfl⟩
  | append_singleton z c ih =>
    obtain ⟨ihc, iho⟩ := ih fun d hd => hz d (by simp [hd])
    have hc := hz c (by simp)
    rw [closedRuns_concat_sep z hc, openRun_concat, ihc, iho, hc]
    exact ⟨rfl, rfl⟩

/-- A stream that ends with a separator and closes no run has only separators. -/
theorem all_sep_of_closedRuns_nil (z : List α) (h : closedRuns p z = [])
    (ho : openRun p z = []) : ∀ c ∈ z, p c = true := by
  induction z using List.reverseRecOn with
  | nil => simp
  | append_singleton z c ih =>
    rw [openRun_concat] at ho
    have hc : p c = true := by
      by_contra hc
      simp [hc] at ho
    rw [closedRuns_concat_sep z hc] at h
    obtain ⟨hz, ho'⟩ := List.append_eq_nil_iff.mp h
    have ho' : openRun p z = [] := by
      by_contra hne
      simp [hne] at ho'
    intro d hd
    rcases List.mem_append.mp hd with hd | hd
    · exact ih hz ho' d hd
    · rwa [List.mem_singleton.mp hd]

theorem first_sep (w : List α) :
    (∀ c ∈ w, p c = false) ∨
      ∃ u c v, w = u ++ c :: v ∧ (∀ d ∈ u, p d = false) ∧ p c = true := by
  induction w with
  | nil => exact Or.inl (by simp)
  | cons d w ih =>
    cases hd : p d with
    | true => exact Or.inr ⟨[], d, w, rfl, by simp, hd⟩
    | false =>
      rcases ih with h | ⟨u, c, v, rfl, hu, hc⟩
      · left
        intro c hc
        rcases List.mem_cons.mp hc with rfl | hc
        · exact hd
        · exact h c hc
      · refine Or.inr ⟨d :: u, c, v, rfl, ?_, hc⟩
        intro e he
        rcases List.mem_cons.mp he with rfl | he
        · exact hd
        · exact hu e he

end Text
