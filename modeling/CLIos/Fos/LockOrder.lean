import CLIos.Fos.Deadlock
import Mathlib.Data.Finset.Lattice.Fold

/-!
# Mutexes in order

Tasks do not come to wait for each other where Lua code locks mutexes in an order, and
unlocks them before the function of its task, or boot.lua, ends.  The order alone is
not enough: `luaMutex` comes before every mutex for a task, which has it around its
function, and after each one that the function has not unlocked.
-/

namespace CLIos

open Rtos Runs Locking Waits

/-- The call of `mutex.lock`, with its caller. -/
def FosEvent.locks : FosEvent → Option (Caller × Nat)
  | .call c (.mutexLock id) => some (c, id)
  | _ => none

def FosLock.rank (rank : Nat → Nat) : FosLock → Nat
  | .luaMutex => 0
  | .mutex id => rank id + 1

namespace Fos

/-- The mutexes of `c`. -/
def heldBy (s : Fos) (c : Caller) : List Nat :=
  (List.range s.objects.length).filter fun id => s.holder (.mutex id) = some c

/-- A mutex is locked while only mutexes below it are held, and `luaMutex` is given
while none is. -/
def InOrder (rank : Nat → Nat) (s : Fos) (e : FosEvent) : Prop :=
  (∀ p ∈ e.locks, ∀ id ∈ s.heldBy p.1, rank id < rank p.2) ∧
    ∀ c ∈ s.givesLuaMutex e, s.heldBy c = []

/-- A worker and `app_main` hold mutexes under `luaMutex` only, and who waits for a
mutex holds mutexes below it only. -/
structure Tidy (rank : Nat → Nat) (s : Fos) : Prop extends Owning s where
  inside : ∀ id c, s.holder (.mutex id) = some c → (∀ n, c ≠ .other n) → s.luaMutex = some c
  ordered : ∀ c id id', s.wants c = some (.mutex id) → s.holder (.mutex id') = some c →
    rank id' < rank id

variable {s s' : Fos} {c : Caller} {id : Nat} {e : FosEvent} {rank : Nat → Nat}

theorem mem_heldBy_iff : id ∈ s.heldBy c ↔ s.holder (.mutex id) = some c := by
  unfold heldBy
  rw [List.mem_filter, List.mem_range, decide_eq_true_iff, and_iff_right_iff_imp]
  intro h
  exact (List.getElem?_eq_some_iff.mp (holder_mutex_iff.mp h)).1

/-- Who holds a mutex held it before, or has got it at this step. -/
theorem holder_cases (hs : s.step e = some s') (hr : s'.holder (.mutex id) = some c) :
    s.holder (.mutex id) = some c ∨ e.caller = c ∧ s'.waiting c = none ∧
      s'.luaMutex = s.luaMutex ∧ (s.running c = true ∨ s.waiting c ≠ none) := by
  have hheld := holder_mutex_iff.mp hr
  cases moved hs with
  | kept hq hobj =>
    rw [hobj] at hheld
    exact Or.inl (holder_mutex_iff.mpr hheld)
  | made o hq ho hobj =>
    rw [hobj] at hheld
    rcases getElem?_concat_cases hheld with hheld | ⟨-, rfl⟩
    · exact Or.inl (holder_mutex_iff.mpr hheld)
    · cases (new_of_step hs hobj : some c = none)
  | served q o o' hq ho hserve hobj =>
    rw [hobj] at hheld
    rcases getElem?_set_cases ho hheld with ⟨rfl, rfl⟩ | ⟨-, hheld⟩
    · obtain rfl := Object.eq_of_serve hserve
      rcases served_request hq with ⟨f, rfl, -⟩ | ⟨rfl, hw⟩
      · obtain ⟨hrun, hcall⟩ := Option.ite_none_right_eq_some.mp hs
        cases called hcall with
        | done => exact Or.inr ⟨rfl, waiting_of_running hrun, rfl, Or.inl hrun⟩
        | wait | delay | create | task => exact Or.inl hr
      · have hsome : s.waiting q.caller ≠ none := by
          rw [hw]
          exact Option.some_ne_none _
        exact Or.inr ⟨rfl, waiting_wake hs, (onWake_spec hs).2.1, Or.inr hsome⟩
    · exact Or.inl (holder_mutex_iff.mpr hheld)

/-- Who waits for a mutex did so before, or has called for it. -/
theorem wants_cases (hs : s.step e = some s') (hw : s'.wants c = some (.mutex id)) :
    s.wants c = some (.mutex id) ∨ e.locks = some (c, id) := by
  by_cases hc : e.caller = c
  · have hwait := wants_mutex_iff.mp hw
    cases e with
    | call c' f =>
      obtain rfl : c' = c := hc
      obtain ⟨hrun, hcall⟩ := Option.ite_none_right_eq_some.mp hs
      cases called hcall with
      | done | create | task => cases (waiting_of_running hrun).symm.trans hwait
      | delay => cases (if_pos rfl : _ = some Waiting.delay).symm.trans hwait
      | wait f id' r o hf =>
        have heq := (if_pos rfl : _ = some (Waiting.forever id' r)).symm.trans hwait
        cases heq
        cases f <;> cases hf
        exact Or.inr rfl
    | wake c' =>
      obtain rfl : c' = c := hc
      cases (waiting_wake hs).symm.trans hwait
    | worker k =>
      obtain rfl : Caller.worker k = c := hc
      obtain ⟨t, m, t', -, hnone, -, -, rfl⟩ := onWorker_eq_some hs
      cases hnone.symm.trans hwait
    | giveBoot =>
      obtain rfl : Caller.main = c := hc
      obtain ⟨⟨-, hnone⟩, hs⟩ := Option.ite_none_right_eq_some.mp hs
      cases hs
      cases hnone.symm.trans hwait
  · exact Or.inl (wants_frame hs hc ▸ hw)

theorem Tidy.step (h : s.Tidy rank) (hord : s.InOrder rank e) (hs : s.step e = some s') :
    s'.Tidy rank where
  toOwning := h.toOwning.step hs
  inside := by
    intro id c hr hc
    rcases holder_cases hs hr with hr | ⟨-, -, hmutex, hrun | hwait⟩
    · rcases luaMutex_step hs (h.inside id c hr hc) with hown | ⟨hgives, -⟩
      · exact hown
      · have hmem : id ∈ s.heldBy c := mem_heldBy_iff.mpr hr
        rw [hord.2 c hgives] at hmem
        cases hmem
    · exact hmutex.trans (h.placed.owns_of_running hrun hc)
    · exact hmutex.trans (h.owns_of_waiting hwait hc)
  ordered := by
    intro c id id' hw hr
    rcases holder_cases hs hr with hr | ⟨-, hnone, -⟩
    · rcases wants_cases hs hw with hw | hlocks
      · exact h.ordered c id id' hw hr
      · exact hord.1 (c, id) hlocks id' (mem_heldBy_iff.mpr hr)
    · cases hnone.symm.trans (wants_mutex_iff.mp hw)

theorem tidy_boot (rank : Nat → Nat) : boot.Tidy rank where
  toOwning := owning_boot
  inside := fun _ _ h => by cases h
  ordered := fun _ _ _ h => by cases wants_mutex_iff.mp h

/-- A worker at its take holds nothing. -/
theorem Tidy.graph_ordered (h : s.Tidy rank) : s.graph.Ordered (FosLock.rank rank) := by
  intro c r r' hw hr
  cases r with
  | mutex id =>
    cases r' with
    | mutex id' => exact Nat.succ_lt_succ (h.ordered c id id' hw hr)
    | luaMutex => exact Nat.succ_pos _
  | luaMutex =>
    exfalso
    obtain ⟨-, k, rfl, t, ht, htake⟩ := wants_luaMutex_iff.mp hw
    have hown : s.luaMutex = some (.worker k) := by
      cases r' with
      | mutex id' => exact h.inside id' _ hr (by rintro n ⟨⟩)
      | luaMutex => exact hr
    have hguarded := (h.placed.owner k t ht).mpr hown
    rw [htake] at hguarded
    cases hguarded

theorem Tidy.free (h : s.Tidy rank) : s.graph.Free := by
  refine WaitGraph.free_of_ordered h.graph_ordered
    ((Finset.range s.objects.length).sup rank + 1) fun r c hr => ?_
  cases r with
  | luaMutex => exact Nat.zero_le _
  | mutex id =>
    have hlt := (List.getElem?_eq_some_iff.mp (holder_mutex_iff.mp hr)).1
    exact Nat.succ_le_succ (Finset.le_sup (f := rank) (Finset.mem_range.mpr hlt))

end Fos

/-- **Locks in order.**  In every run in which mutexes are locked in an order, and
unlocked before the function of a task or boot.lua ends, everybody who waits for a
lock waits, in the end, for somebody who waits for none or for one that is free, and
no tasks wait for each other. -/
theorem ordered_locks_free (rank : Nat → Nat) (es : List FosEvent)
    (h : fos.Along (Fos.InOrder rank) es) :
    fos.Always (fun s => s.graph.Free ∧ ∀ C, ¬ s.graph.Knot C) es :=
  Machine.always_mono (fun _ h => ⟨h.free, WaitGraph.free_iff.mp h.free⟩)
    (Machine.always_of_along (Fos.tidy_boot rank) (fun _ _ _ h hord hs => h.step hord hs) es h)

instance (rank : Nat → Nat) (s : Fos) (e : FosEvent) : Decidable (s.InOrder rank e) :=
  inferInstanceAs (Decidable (_ ∧ _))

/-- A task whose function has two mutexes, and a server thread that waits for each. -/
def twoMutexes : List FosEvent :=
  [.call .main (.mutexCreate true), .call .main (.mutexCreate true),
    .call .main (.taskCreate true true), .call .main (.task 0 .start), .giveBoot] ++
  List.replicate 6 (.worker 0) ++
  [.call (.worker 0) (.mutexLock 0), .call (.other 0) (.mutexLock 0),
    .call (.worker 0) (.mutexLock 1), .call (.worker 0) (.mutexUnlock 0), .wake (.other 0),
    .call (.other 0) (.mutexLock 1), .call (.worker 0) (.mutexUnlock 1), .wake (.other 0)] ++
  List.replicate 2 (.worker 0)

theorem ordered_locks_free_two : (fos.run twoMutexes).isSome = true ∧
    fos.Always (fun s => s.graph.Free ∧ ∀ C, ¬ s.graph.Knot C) twoMutexes :=
  ⟨rfl, ordered_locks_free id _ (Machine.along_of_check _ _ (by decide +kernel))⟩

end CLIos
