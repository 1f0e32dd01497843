import CLIos.Lib.Rtos
import CLIos.Lib.Machine

/-!
# The history of a kernel object

The requests that were done on an object, with their tasks and in their order.
`Lawful` says what the history of each kind of object looks like.  A queue holds as
many items as were sent and not received, and never more than it has room for.
A mutex that is locked is next unlocked, and by the task that has locked it.  What was
taken from a semaphore was given before; the gives that found it at its maximum are
lost, and there are none exactly if the gives were never `max` ahead of the takes.
-/

namespace Rtos

open Runs

structure Done (τ ι : Type) where
  who : τ
  request : Request ι

variable {τ ι : Type}

namespace Request

def isSend : Request ι → Bool
  | .send _ => true
  | _ => false

def isReceive : Request ι → Bool
  | .receive => true
  | _ => false

def isTake : Request ι → Bool
  | .take => true
  | _ => false

def isGive : Request ι → Bool
  | .give => true
  | _ => false

end Request

def sends (h : List (Done τ ι)) : Nat := h.countP fun d => d.request.isSend

def receives (h : List (Done τ ι)) : Nat := h.countP fun d => d.request.isReceive

def takes (h : List (Done τ ι)) : Nat := h.countP fun d => d.request.isTake

def gives (h : List (Done τ ι)) : Nat := h.countP fun d => d.request.isGive

/-- What is done after a lock is the unlock of the same task. -/
def Sections (h : List (Done τ ι)) : Prop :=
  ∀ pre a d, pre ++ [⟨a, .lock⟩] ++ [d] <+: h → d = ⟨a, .unlock⟩

namespace Object

/-- As the kernel makes it: no items, no holder, a count of 0. -/
def New : Object τ ι → Prop
  | .queue _ items => items = []
  | .mutex holder => holder = none
  | .semaphore _ count => count = 0

def Lawful (h : List (Done τ ι)) : Object τ ι → Prop
  | .queue length items => items.length ≤ length ∧ sends h = receives h + items.length
  | .mutex holder => Sections h ∧ ∀ a, holder = some a ↔ h.getLast? = some ⟨a, .lock⟩
  | .semaphore max count => count ≤ max ∧ takes h + count ≤ gives h ∧
    (takes h + count = gives h ↔ ∀ pre, pre <+: h → gives pre ≤ takes pre + max)

theorem New.lawful {o : Object τ ι} (h : o.New) : o.Lawful [] := by
  cases o with
  | queue length items =>
    obtain rfl : items = [] := h
    exact ⟨Nat.zero_le _, rfl⟩
  | mutex holder =>
    obtain rfl : holder = none := h
    refine ⟨fun pre a d hpre => absurd hpre (not_concat_prefix_nil _ d), fun a => ?_⟩
    exact iff_of_false (by rintro ⟨⟩) (by rintro ⟨⟩)
  | semaphore max count =>
    obtain rfl : count = 0 := h
    refine ⟨Nat.zero_le _, Nat.le_refl _, iff_of_true rfl fun pre hpre => ?_⟩
    rw [List.prefix_nil.mp hpre]
    exact Nat.zero_le _

/-- One request more in a count. -/
theorem countP_concat (p : Done τ ι → Bool) (h : List (Done τ ι)) (d : Done τ ι) :
    (h ++ [d]).countP p = h.countP p + if p d then 1 else 0 := by
  rw [List.countP_append, List.countP_singleton]

theorem forall_prefix_concat {P : List (Done τ ι) → Prop} {h : List (Done τ ι)} {d : Done τ ι} :
    (∀ pre, pre <+: h ++ [d] → P pre) ↔ (∀ pre, pre <+: h → P pre) ∧ P (h ++ [d]) := by
  constructor
  · intro hall
    exact ⟨fun pre hpre => hall pre (hpre.trans (List.prefix_append h [d])),
      hall _ List.prefix_rfl⟩
  · rintro ⟨hall, hlast⟩ pre hpre
    rcases List.prefix_concat_iff.mp hpre with rfl | hpre
    · exact hlast
    · exact hall pre hpre

variable [DecidableEq τ]

theorem lawful_queue {h : List (Done τ ι)} {length : Nat} {items : List ι} {d : Done τ ι}
    {o : Object τ ι} {v : Option ι} (hl : (Object.queue length items : Object τ ι).Lawful h)
    (hs : (Object.queue length items).serve d.who d.request = .done o v) :
    o.Lawful (h ++ [d]) := by
  obtain ⟨hroom, hcount⟩ := hl
  obtain ⟨who, r⟩ := d
  cases r with
  | send w =>
    simp only [serve] at hs
    split at hs
    · next hlt =>
      cases hs
      have hsends : sends (h ++ [(⟨who, .send w⟩ : Done τ ι)]) = sends h + 1 :=
        countP_concat _ h _
      have hreceives : receives (h ++ [(⟨who, .send w⟩ : Done τ ι)]) = receives h :=
        countP_concat _ h _
      have hlength : (items ++ [w]).length = items.length + 1 := List.length_append
      exact ⟨by omega, by omega⟩
    · cases hs
  | receive =>
    cases items with
    | nil => cases hs
    | cons w rest =>
      cases hs
      have hsends : sends (h ++ [(⟨who, .receive⟩ : Done τ ι)]) = sends h := countP_concat _ h _
      have hreceives : receives (h ++ [(⟨who, .receive⟩ : Done τ ι)]) = receives h + 1 :=
        countP_concat _ h _
      rw [List.length_cons] at hroom hcount
      exact ⟨by omega, by omega⟩
  | lock | unlock | take | give => cases hs

theorem lawful_mutex {h : List (Done τ ι)} {holder : Option τ} {d : Done τ ι} {o : Object τ ι}
    {v : Option ι} (hl : (Object.mutex holder : Object τ ι).Lawful h)
    (hs : (Object.mutex holder).serve d.who d.request = .done o v) : o.Lawful (h ++ [d]) := by
  obtain ⟨hsections, hholder⟩ := hl
  obtain ⟨who, r⟩ := d
  -- a request that is done on a locked mutex is the unlock of its holder
  have hnext : ∀ a, holder = some a → (⟨who, r⟩ : Done τ ι) = ⟨a, .unlock⟩ := by
    rintro a rfl
    cases r with
    | unlock =>
      simp only [serve] at hs
      split at hs
      · next hwho =>
        rw [Option.some.inj (hwho.resolve_left (by rintro ⟨⟩))]
      · cases hs
    | send | receive | lock | take | give => cases hs
  have hsections' : Sections (h ++ [⟨who, r⟩]) := by
    intro pre a x hpre
    rcases concat_prefix_concat.mp hpre with ⟨rfl, rfl⟩ | hpre
    · exact hnext a ((hholder a).mpr List.getLast?_concat)
    · exact hsections pre a x hpre
  cases r with
  | lock =>
    simp only [serve] at hs
    split at hs
    · cases hs
      refine ⟨hsections', fun a => ?_⟩
      rw [List.getLast?_concat]
      constructor
      · rintro ⟨⟩
        rfl
      · rintro ⟨⟩
        rfl
    · cases hs
  | unlock =>
    simp only [serve] at hs
    split at hs
    · cases hs
      refine ⟨hsections', fun a => ?_⟩
      rw [List.getLast?_concat]
      exact iff_of_false (by rintro ⟨⟩) (by rintro ⟨⟩)
    · cases hs
  | send | receive | take | give => cases hs

theorem lawful_semaphore {h : List (Done τ ι)} {max count : Nat} {d : Done τ ι} {o : Object τ ι}
    {v : Option ι} (hl : (Object.semaphore max count : Object τ ι).Lawful h)
    (hs : (Object.semaphore max count).serve d.who d.request = .done o v) :
    o.Lawful (h ++ [d]) := by
  obtain ⟨hmax, hle, hlost⟩ := hl
  obtain ⟨who, r⟩ := d
  cases r with
  | take =>
    simp only [serve] at hs
    split at hs
    · next hpos =>
      cases hs
      have htakes : takes (h ++ [(⟨who, .take⟩ : Done τ ι)]) = takes h + 1 := countP_concat _ h _
      have hgives : gives (h ++ [(⟨who, .take⟩ : Done τ ι)]) = gives h := countP_concat _ h _
      refine ⟨by omega, by omega, ?_⟩
      rw [forall_prefix_concat, ← hlost, htakes, hgives]
      omega
    · cases hs
  | give =>
    cases hs
    have htakes : takes (h ++ [(⟨who, .give⟩ : Done τ ι)]) = takes h := countP_concat _ h _
    have hgives : gives (h ++ [(⟨who, .give⟩ : Done τ ι)]) = gives h + 1 := countP_concat _ h _
    refine ⟨by omega, by omega, ?_⟩
    rw [forall_prefix_concat, ← hlost, htakes, hgives]
    omega
  | send | receive | lock | unlock => cases hs

/-- A request that is done keeps the laws. -/
theorem Lawful.serve {h : List (Done τ ι)} {o o' : Object τ ι} {d : Done τ ι} {v : Option ι}
    (hl : o.Lawful h) (hs : o.serve d.who d.request = .done o' v) : o'.Lawful (h ++ [d]) := by
  cases o with
  | queue length items => exact lawful_queue hl hs
  | mutex holder => exact lawful_mutex hl hs
  | semaphore max count => exact lawful_semaphore hl hs

end Object

end Rtos
