import Mathlib.Data.List.Basic
import Mathlib.Tactic.Common

/-!
# Objects and their collection

Objects are numbered as they are made; object 0 is the root, and `refs` tells
what an object refers to.  A path names an object by the references to follow
from the root, so that whoever uses paths uses what is reachable.

A collection names what it keeps: the root, and with an object all that it
refers to.  Everything else is freed; references stay, as nothing that is kept
leads to what was freed.
-/

namespace Collector

structure Heap where
  made : Nat
  refs : Nat → List Nat
  freed : List Nat

/-- The references to follow, each by its place. -/
abbrev Path := List Nat

def followFrom (refs : Nat → List Nat) : Nat → Path → Option Nat
  | o, [] => some o
  | o, i :: p => (refs o)[i]?.bind fun x => followFrom refs x p

def follow (refs : Nat → List Nat) (p : Path) : Option Nat := followFrom refs 0 p

def followAll (refs : Nat → List Nat) : List Path → Option (List Nat)
  | [] => some []
  | p :: ps => (follow refs p).bind fun x => (followAll refs ps).map fun xs => x :: xs

namespace Heap

/-- A new object, which nothing refers to yet. -/
def make (h : Heap) (vs : List Nat) : Heap where
  made := h.made + 1
  refs := fun o => if o = h.made then vs else h.refs o
  freed := h.freed

def setRefs (h : Heap) (o : Nat) (vs : List Nat) : Heap :=
  { h with refs := fun o' => if o' = o then vs else h.refs o' }

def addRef (h : Heap) (o x : Nat) : Heap := h.setRefs o (h.refs o ++ [x])

/-- A collection that keeps `kept`. -/
def collect (h : Heap) (kept : List Nat) : Option Heap :=
  if 0 ∈ kept ∧ ∀ o ∈ kept, ∀ x ∈ h.refs o, x ∈ kept then
    some { h with freed := h.freed ++ (List.range h.made).filter fun o => o ∉ kept }
  else none

inductive Reach (h : Heap) : Nat → Prop
  | root : Reach h 0
  | step {o x : Nat} : Reach h o → x ∈ h.refs o → Reach h x

variable {h h' : Heap}

theorem Reach.of_followFrom {o x : Nat} {p : Path} (ho : h.Reach o)
    (hf : followFrom h.refs o p = some x) : h.Reach x := by
  induction p generalizing o with
  | nil => exact Option.some.inj hf ▸ ho
  | cons i p ih =>
    obtain ⟨y, hy, hf⟩ := Option.bind_eq_some_iff.mp hf
    exact ih (ho.step (List.mem_of_getElem? hy)) hf

theorem Reach.of_follow {x : Nat} {p : Path} (hf : follow h.refs p = some x) : h.Reach x :=
  Reach.root.of_followFrom hf

theorem Reach.of_followAll {ps : List Path} {xs : List Nat} (hf : followAll h.refs ps = some xs) :
    ∀ x ∈ xs, h.Reach x := by
  induction ps generalizing xs with
  | nil =>
    obtain rfl := Option.some.inj hf
    exact fun x hx => absurd hx List.not_mem_nil
  | cons p ps ih =>
    obtain ⟨y, hy, hf⟩ := Option.bind_eq_some_iff.mp hf
    obtain ⟨ys, hys, rfl⟩ := Option.map_eq_some_iff.mp hf
    intro x hx
    rcases List.mem_cons.mp hx with rfl | hx
    · exact .of_follow hy
    · exact ih hys x hx

/-- What is reachable after a change was reachable before or is new, if that holds
of the references of such objects. -/
theorem Reach.of_refs {N : Nat → Prop}
    (hN : ∀ o x, h.Reach o ∨ N o → x ∈ h'.refs o → h.Reach x ∨ N x) {x : Nat} (hx : h'.Reach x) :
    h.Reach x ∨ N x := by
  induction hx with
  | root => exact Or.inl .root
  | step _ hmem ih => exact hN _ _ ih hmem

/-- Only the references matter. -/
theorem Reach.congr (hrefs : h'.refs = h.refs) {x : Nat} (hx : h.Reach x) : h'.Reach x := by
  induction hx with
  | root => exact .root
  | step _ hmem ih => exact ih.step (hrefs ▸ hmem)

/-- Objects refer to objects that were made, and what is freed is unreachable. -/
structure Sound (h : Heap) : Prop where
  made_pos : 0 < h.made
  refs_made : ∀ o, ∀ x ∈ h.refs o, x < h.made
  freed_made : ∀ o ∈ h.freed, o < h.made
  live : ∀ o, h.Reach o → o ∉ h.freed

theorem Sound.reach_made (hs : h.Sound) {x : Nat} (hx : h.Reach x) : x < h.made := by
  cases hx with
  | root => exact hs.made_pos
  | step _ hmem => exact hs.refs_made _ _ hmem

/-- References to what is reachable make nothing else reachable. -/
theorem Reach.of_setRefs {o x : Nat} {vs : List Nat} (hvs : ∀ v ∈ vs, h.Reach v)
    (hx : (h.setRefs o vs).Reach x) : h.Reach x := by
  have hor := Reach.of_refs (N := fun _ => False) (h := h) ?_ hx
  · exact hor.resolve_right id
  · intro a b ha hb
    have ha := ha.resolve_right id
    by_cases hao : a = o
    · exact Or.inl (hvs b (by simpa [setRefs, hao] using hb))
    · exact Or.inl (ha.step (by simpa [setRefs, hao] using hb))

theorem Sound.setRefs (hs : h.Sound) (o : Nat) {vs : List Nat} (hvs : ∀ v ∈ vs, h.Reach v) :
    (h.setRefs o vs).Sound where
  made_pos := hs.made_pos
  refs_made := by
    intro a x hx
    by_cases hao : a = o
    · exact hs.reach_made (hvs x (by simpa [Heap.setRefs, hao] using hx))
    · exact hs.refs_made a x (by simpa [Heap.setRefs, hao] using hx)
  freed_made := hs.freed_made
  live := fun x hx => hs.live x (hx.of_setRefs hvs)

theorem Sound.addRef (hs : h.Sound) {o x : Nat} (ho : h.Reach o) (hx : h.Reach x) :
    (h.addRef o x).Sound := by
  refine hs.setRefs o fun v hv => ?_
  rcases List.mem_append.mp hv with hv | hv
  · exact ho.step hv
  · exact List.mem_singleton.mp hv ▸ hx

theorem Sound.make (hs : h.Sound) {vs : List Nat} (hvs : ∀ v ∈ vs, h.Reach v) :
    (h.make vs).Sound where
  made_pos := Nat.succ_pos _
  refs_made := by
    intro a x hx
    by_cases ha : a = h.made
    · have := hs.reach_made (hvs x (by simpa [Heap.make, ha] using hx))
      exact Nat.lt_succ_of_lt this
    · have := hs.refs_made a x (by simpa [Heap.make, ha] using hx)
      exact Nat.lt_succ_of_lt this
  freed_made := fun o ho => Nat.lt_succ_of_lt (hs.freed_made o ho)
  live := by
    intro x hx
    refine hs.live x ((Reach.of_refs (N := fun _ => False) ?_ hx).resolve_right id)
    intro a b ha hb
    have ha := ha.resolve_right id
    -- the new object is not reachable, so it is not the one that refers to `b`
    have hne : a ≠ h.made := Nat.ne_of_lt (hs.reach_made ha)
    exact Or.inl (ha.step (by simpa [Heap.make, hne] using hb))

/-- A new object that a reachable one refers to. -/
theorem Sound.make_addRef (hs : h.Sound) {o : Nat} {vs : List Nat} (ho : h.Reach o)
    (hvs : ∀ v ∈ vs, h.Reach v) : ((h.make vs).addRef o h.made).Sound := by
  have hmake := hs.make hvs
  have hone : o ≠ h.made := Nat.ne_of_lt (hs.reach_made ho)
  have hreach : ∀ x, ((h.make vs).addRef o h.made).Reach x → h.Reach x ∨ x = h.made := by
    intro x hx
    refine Reach.of_refs (N := fun x => x = h.made) ?_ hx
    intro a b ha hb
    by_cases hao : a = o
    · have hb : b ∈ h.refs o ++ [h.made] := by
        simpa [Heap.addRef, Heap.setRefs, Heap.make, hao, hone] using hb
      rcases List.mem_append.mp hb with hb | hb
      · exact Or.inl (ho.step hb)
      · exact Or.inr (List.mem_singleton.mp hb)
    · by_cases ham : a = h.made
      · subst ham
        exact Or.inl (hvs b (by simpa [Heap.addRef, Heap.setRefs, Heap.make, hao] using hb))
      · have ha := ha.resolve_right ham
        exact Or.inl (ha.step (by simpa [Heap.addRef, Heap.setRefs, Heap.make, hao, ham] using hb))
  refine ⟨hmake.made_pos, fun a x hx => ?_, hmake.freed_made, fun x hx hfreed => ?_⟩
  · by_cases hao : a = o
    · have hx : x ∈ (h.make vs).refs o ++ [h.made] := by
        simpa [Heap.addRef, Heap.setRefs, hao] using hx
      rcases List.mem_append.mp hx with hx | hx
      · exact hmake.refs_made o x hx
      · rw [List.mem_singleton.mp hx]
        exact Nat.lt_succ_self _
    · exact hmake.refs_made a x (by simpa [Heap.addRef, Heap.setRefs, hao] using hx)
  · rcases hreach x hx with hx | rfl
    · exact hs.live x hx hfreed
    · exact Nat.lt_irrefl _ (hs.freed_made _ hfreed)

/-! ## Collections -/

theorem collect_eq_some {kept : List Nat} (hc : h.collect kept = some h') :
    h' = { h with freed := h'.freed } ∧ (∀ o, h.Reach o → o ∈ kept) ∧
      ∀ o, o ∈ h'.freed ↔ o ∈ h.freed ∨ o < h.made ∧ o ∉ kept := by
  unfold collect at hc
  split at hc
  · next hkept =>
    obtain rfl := Option.some.inj hc
    refine ⟨rfl, fun o ho => ?_, fun o => by simp⟩
    induction ho with
    | root => exact hkept.1
    | step _ hmem ih => exact hkept.2 _ ih _ hmem
  · cases hc

theorem Sound.collect (hs : h.Sound) {kept : List Nat} (hc : h.collect kept = some h') :
    h'.Sound := by
  obtain ⟨heq, hkept, hfreed⟩ := collect_eq_some hc
  have hrefs : h'.refs = h.refs := by rw [heq]
  have hmade : h'.made = h.made := by rw [heq]
  refine ⟨?_, ?_, fun o ho => ?_, fun o ho hmem => ?_⟩
  · rw [hmade]
    exact hs.made_pos
  · rw [hmade, hrefs]
    exact hs.refs_made
  · rw [hmade]
    rcases (hfreed o).mp ho with ho | ho
    · exact hs.freed_made o ho
    · exact ho.1
  · have ho : h.Reach o := ho.congr hrefs.symm
    rcases (hfreed o).mp hmem with hmem | ⟨-, hmem⟩
    · exact hs.live o ho hmem
    · exact hmem (hkept o ho)

/-- A collection may take whatever is not reachable. -/
theorem Sound.exists_collect (hs : h.Sound) :
    ∃ kept h', h.collect kept = some h' ∧ ∀ o, o < h.made → ¬ h.Reach o → o ∈ h'.freed := by
  classical
  let kept := (List.range h.made).filter fun o => h.Reach o
  have hmem : ∀ o, o ∈ kept ↔ h.Reach o := by
    intro o
    rw [List.mem_filter, List.mem_range, decide_eq_true_iff]
    exact ⟨fun ho => ho.2, fun ho => ⟨hs.reach_made ho, ho⟩⟩
  have hclosed : 0 ∈ kept ∧ ∀ o ∈ kept, ∀ x ∈ h.refs o, x ∈ kept :=
    ⟨(hmem 0).mpr .root, fun o ho x hx => (hmem x).mpr (((hmem o).mp ho).step hx)⟩
  refine ⟨kept, _, if_pos hclosed, fun o hlt hun => ?_⟩
  refine List.mem_append.mpr (Or.inr (List.mem_filter.mpr ⟨List.mem_range.mpr hlt, ?_⟩))
  rw [decide_eq_true_iff, hmem]
  exact hun

end Heap

end Collector
