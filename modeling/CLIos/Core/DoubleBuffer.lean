import CLIos.Core.Repl
import CLIos.Lib.TwoSlots

/-!
# The two rows, one access at a time

Here a publication of `_ShellTask` and the copy that `_HandleLuaCommand` makes
of a row are taken apart (main/Core_Level.c): every load or store of
`active_index`, of a cell of `buffer_perline` and of `buffer_perline_len` is a
step of its own, and the steps of the two tasks come in any order.  A line is
published by the store of `active_index`.

The consumer's window (Lib/TwoSlots) opens at its load of `active_index` and
closes with the last byte copied.  A copy made while at most one publication
had a step is the line published last before the load (`DoubleBuffer.Intact`).
-/

namespace CLIos

open CMem Runs TwoSlots

/-- A row of `buffer_perline` with its entry of `buffer_perline_len`. -/
abbrev Row : Type := CArray UInt8 CHAR_BUFFER_SIZE × Nat

/-- Where `_ShellTask` is in a publication. -/
inductive Publication where
  | idle
  /-- the first `i` bytes are in the row `next` -/
  | copying (line : Line) (next : Bool) (i : Nat)
  | terminated (line : Line) (next : Bool)
  | measured (line : Line) (next : Bool)
  /-- `active_index` is stored, the notification not given -/
  | switched

/-- Where `_HandleLuaCommand` is; `last` is the line published last before the
load of `active_index`. -/
inductive Consumer where
  | waiting
  | taken
  | loaded (w : Window Row) (last : Option (List UInt8))
  | copying (w : Window Row) (last : Option (List UInt8)) (len : Nat) (got : List UInt8)
  /-- with the line appended: the rest of the loop body -/
  | working

/-- What a copy appended, with the publications that had a step in its window. -/
structure Copied where
  last : Option (List UInt8)
  len : Nat
  bytes : List UInt8
  touched : List Nat

structure DoubleBuffer where
  bufferPerline : Bool → CArray UInt8 CHAR_BUFFER_SIZE
  bufferPerlineLen : Bool → Nat
  activeIndex : Bool
  shell : Publication
  /-- the notification count is not 0 -/
  notified : Bool
  lua : Consumer
  published : List (List UInt8)
  copies : List Copied

inductive Access where
  /-- the load of `active_index` for `next_index` -/
  | begin (line : Line)
  | copyByte
  | storeNul
  | storeLen
  | storeIndex
  | notifyGive
  | notifyTake
  | loadIndex
  | readLen
  | readByte
  | finish

namespace DoubleBuffer

def start : DoubleBuffer where
  bufferPerline := fun _ => CArray.fill CHAR_BUFFER_SIZE 0
  bufferPerlineLen := fun _ => 0
  activeIndex := false
  shell := .idle
  notified := false
  lua := .waiting
  published := []
  copies := []

def row (s : DoubleBuffer) (i : Bool) : Row := (s.bufferPerline i, s.bufferPerlineLen i)

def setRow (s : DoubleBuffer) (i : Bool) (row : Row) : DoubleBuffer :=
  { s with
    bufferPerline := fun j => if j = i then row.1 else s.bufferPerline j
    bufferPerlineLen := fun j => if j = i then row.2 else s.bufferPerlineLen j }

/-- The consumer, with a step of the publication under way in its window. -/
def touch (s : DoubleBuffer) : Consumer :=
  match s.lua with
  | .loaded w last => .loaded (w.touch s.published.length) last
  | .copying w last len got => .copying (w.touch s.published.length) last len got
  | .waiting => .waiting
  | .taken => .taken
  | .working => .working

/-- After `got`: the copy goes on, or the window closes. -/
def advance (s : DoubleBuffer) (w : Window Row) (last : Option (List UInt8)) (len : Nat)
    (got : List UInt8) : DoubleBuffer :=
  if got.length < len then { s with lua := .copying w last len got }
  else { s with lua := .working, copies := s.copies ++ [⟨last, len, got, w.touched⟩] }

def step (s : DoubleBuffer) : Access → Option DoubleBuffer
  | .begin line =>
    match s.shell with
    | .idle => some { s with shell := .copying line (!s.activeIndex) 0 }
    | _ => none
  | .copyByte =>
    match s.shell with
    | .copying line next i =>
      line.bytes[i]?.bind fun c =>
      ((s.bufferPerline next).store i c).bind fun cells =>
      some { s.setRow next (cells, s.bufferPerlineLen next) with
        shell := .copying line next (i + 1)
        lua := s.touch }
    | _ => none
  | .storeNul =>
    match s.shell with
    | .copying line next i =>
      if i = line.bytes.length then
        ((s.bufferPerline next).store i 0).bind fun cells =>
        some { s.setRow next (cells, s.bufferPerlineLen next) with
          shell := .terminated line next
          lua := s.touch }
      else none
    | _ => none
  | .storeLen =>
    match s.shell with
    | .terminated line next =>
      some { s.setRow next (s.bufferPerline next, line.bytes.length) with
        shell := .measured line next
        lua := s.touch }
    | _ => none
  | .storeIndex =>
    match s.shell with
    | .measured line next =>
      some { s with
        activeIndex := next
        published := s.published ++ [line.bytes]
        shell := .switched
        lua := s.touch }
    | _ => none
  | .notifyGive =>
    match s.shell with
    | .switched => some { s with shell := .idle, notified := true }
    | _ => none
  | .notifyTake =>
    match s.lua with
    | .waiting => if s.notified then some { s with lua := .taken, notified := false } else none
    | _ => none
  | .loadIndex =>
    match s.lua with
    | .taken => some { s with
        lua := .loaded ⟨s.activeIndex, s.row s.activeIndex, []⟩ s.published.getLast? }
    | _ => none
  | .readLen =>
    match s.lua with
    | .loaded w last => some (s.advance w last (s.bufferPerlineLen w.slot) [])
    | _ => none
  | .readByte =>
    match s.lua with
    | .copying w last len got =>
      ((s.bufferPerline w.slot).load got.length).bind fun c =>
      some (s.advance w last len (got ++ [c]))
    | _ => none
  | .finish =>
    match s.lua with
    | .working => some { s with lua := .waiting }
    | _ => none

end DoubleBuffer

def doubleBuffer : Machine DoubleBuffer Access where
  init := DoubleBuffer.start
  step := DoubleBuffer.step

/-- Length and bytes are those of the line published last before the load. -/
def Copied.Whole (c : Copied) : Prop := ∃ l, c.last = some l ∧ c.len = l.length ∧ c.bytes = l

def DoubleBuffer.Intact (s : DoubleBuffer) : Prop :=
  ∀ c ∈ s.copies, AtMostOne c.touched → c.Whole

/-! ## What the two tasks keep -/

/-- The row holds the line and its length. -/
structure Row.Holds (r : Row) (l : List UInt8) : Prop where
  len : r.2 = l.length
  bytes : r.1.first l.length = l

def Consumer.window : Consumer → Option (Window Row)
  | .loaded w _ => some w
  | .copying w _ _ _ => some w
  | .waiting => none
  | .taken => none
  | .working => none

namespace DoubleBuffer

/-- The rows as the two slots of Lib/TwoSlots. -/
def slots (s : DoubleBuffer) : Slots Row where
  slot := s.row
  active := s.activeIndex
  ended := s.published.length
  window := s.lua.window

theorem window_touch (s : DoubleBuffer) :
    s.touch.window = s.lua.window.map fun w => w.touch s.published.length := by
  unfold touch
  cases s.lua <;> rfl

/-- What the row being written holds so far. -/
def Publishing (s : DoubleBuffer) : Prop :=
  match s.shell with
  | .copying line next i => next = !s.activeIndex ∧ i ≤ line.bytes.length ∧
      (s.bufferPerline next).first i = line.bytes.take i
  | .terminated line next => next = !s.activeIndex ∧
      (s.bufferPerline next).first line.bytes.length = line.bytes
  | .measured line next => next = !s.activeIndex ∧ (s.row next).Holds line.bytes
  | .idle => True
  | .switched => True

/-- What the consumer has, as long as at most one publication was in its window. -/
def Consuming (s : DoubleBuffer) : Prop :=
  match s.lua with
  | .loaded w last => ∃ l, last = some l ∧ w.content.Holds l
  | .copying w last len got => (∃ l, last = some l ∧ w.content.Holds l) ∧
      (AtMostOne w.touched → len = w.content.2 ∧ got = w.content.1.first got.length) ∧
      got.length < len
  | .waiting => True
  | .taken => True
  | .working => True

structure Inv (s : DoubleBuffer) : Prop where
  kept : s.slots.Kept
  active : ∀ l, s.published.getLast? = some l → (s.row s.activeIndex).Holds l
  shell : s.Publishing
  some_line : s.notified = true ∨ s.lua = .taken ∨ s.shell = .switched → s.published ≠ []
  lua : s.Consuming
  intact : s.Intact

/-- A step that publishes nothing keeps `some_line` if it raises none of its three conditions. -/
theorem Inv.some_line_of_imp {s s' : DoubleBuffer} (h : s.Inv) (hpub : s'.published = s.published)
    (hnot : s'.notified = true → s.notified = true) (hlua : s'.lua = .taken → s.lua = .taken)
    (hshell : s'.shell = .switched → s.shell = .switched) :
    s'.notified = true ∨ s'.lua = .taken ∨ s'.shell = .switched → s'.published ≠ [] := by
  rw [hpub]
  rintro (hn | ht | hsw)
  · exact h.some_line (Or.inl (hnot hn))
  · exact h.some_line (Or.inr (Or.inl (hlua ht)))
  · exact h.some_line (Or.inr (Or.inr (hshell hsw)))

theorem inv_start : start.Inv where
  kept := Slots.kept_of_no_window rfl
  active := by intro l hl; cases hl
  shell := trivial
  some_line := by
    rintro (h | h | h) <;> cases h
  lua := trivial
  intact := by intro c hc; cases hc

theorem Consuming.touch {s s' : DoubleBuffer} (h : s.Consuming) (hlua : s'.lua = s.touch) :
    s'.Consuming := by
  unfold Consuming at h ⊢
  rw [hlua, DoubleBuffer.touch]
  cases hs : s.lua with
  | loaded w last =>
    rw [hs] at h
    exact h
  | copying w last len got =>
    rw [hs] at h
    exact ⟨h.1, fun hone => h.2.1 hone.of_concat.1, h.2.2⟩
  | waiting => trivial
  | taken => trivial
  | working => trivial

theorem touch_eq_taken {s : DoubleBuffer} (h : s.touch = .taken) : s.lua = .taken := by
  unfold touch at h
  split at h
  all_goals first | assumption | cases h

/-! ## The shell's steps -/

theorem slots_setRow (s : DoubleBuffer) (row : Row) (shell : Publication) :
    slots { s.setRow (!s.activeIndex) row with shell := shell, lua := s.touch } =
      s.slots.write row := by
  have hslot : (s.setRow (!s.activeIndex) row).row = fun i =>
      if i = !s.activeIndex then row else s.row i := by
    funext i
    unfold DoubleBuffer.row setRow
    by_cases hi : i = !s.activeIndex <;> simp [hi]
  unfold slots Slots.write
  rw [Slots.mk.injEq]
  exact ⟨hslot, rfl, rfl, s.window_touch⟩

/-- A store into the row that is not active. -/
theorem Inv.setRow {s : DoubleBuffer} (h : s.Inv) (row : Row) (shell : Publication)
    (hsw : shell ≠ .switched)
    (hshell : Publishing { s.setRow (!s.activeIndex) row with shell := shell, lua := s.touch }) :
    Inv { s.setRow (!s.activeIndex) row with shell := shell, lua := s.touch } where
  kept := by
    rw [slots_setRow]
    exact h.kept.move (.write row)
  active := by
    intro l hl
    have hactive := h.active l hl
    unfold DoubleBuffer.row at hactive ⊢
    simpa [DoubleBuffer.setRow] using hactive
  shell := hshell
  some_line := h.some_line_of_imp rfl id touch_eq_taken fun hs => absurd hs hsw
  lua := h.lua.touch rfl
  intact := h.intact

theorem Inv.copyByte {s s' : DoubleBuffer} (h : s.Inv) (hs : s.step .copyByte = some s') :
    s'.Inv := by
  have hshell := h.shell
  unfold step at hs
  cases hp : s.shell with
  | copying line next i =>
    simp only [hp] at hs
    obtain ⟨c, hc, hs⟩ := Option.bind_eq_some_iff.mp hs
    obtain ⟨cells, hst, hs⟩ := Option.bind_eq_some_iff.mp hs
    obtain rfl := Option.some.inj hs
    simp only [Publishing, hp] at hshell
    obtain ⟨rfl, hle, hfirst⟩ := hshell
    have hlt : i < line.bytes.length := (List.getElem?_eq_some_iff.mp hc).1
    refine h.setRow (cells, s.bufferPerlineLen (!s.activeIndex)) _ (by simp) ⟨rfl, hlt, ?_⟩
    show (if _ then _ else _ : CArray UInt8 CHAR_BUFFER_SIZE).first (i + 1) = _
    rw [if_pos rfl, CArray.first_store_succ hst, hfirst, List.take_add_one, hc]
    rfl
  | _ => simp [hp] at hs

theorem Inv.storeNul {s s' : DoubleBuffer} (h : s.Inv) (hs : s.step .storeNul = some s') :
    s'.Inv := by
  have hshell := h.shell
  unfold step at hs
  cases hp : s.shell with
  | copying line next i =>
    simp only [hp] at hs
    split at hs
    · next hi =>
      obtain ⟨cells, hst, hs⟩ := Option.bind_eq_some_iff.mp hs
      obtain rfl := Option.some.inj hs
      simp only [Publishing, hp] at hshell
      obtain ⟨rfl, -, hfirst⟩ := hshell
      refine h.setRow (cells, s.bufferPerlineLen (!s.activeIndex)) _ (by simp) ⟨rfl, ?_⟩
      show (if _ then _ else _ : CArray UInt8 CHAR_BUFFER_SIZE).first _ = _
      rw [if_pos rfl, ← hi, CArray.first_store_of_le hst (Nat.le_refl _), hfirst, hi,
        List.take_length]
    · cases hs
  | _ => simp [hp] at hs

theorem Inv.storeLen {s s' : DoubleBuffer} (h : s.Inv) (hs : s.step .storeLen = some s') :
    s'.Inv := by
  have hshell := h.shell
  unfold step at hs
  cases hp : s.shell with
  | terminated line next =>
    simp only [hp] at hs
    obtain rfl := Option.some.inj hs
    simp only [Publishing, hp] at hshell
    obtain ⟨rfl, hfirst⟩ := hshell
    refine h.setRow (s.bufferPerline (!s.activeIndex), line.bytes.length) _ (by simp) ⟨rfl, ?_, ?_⟩
    · simp [DoubleBuffer.row, DoubleBuffer.setRow]
    · simpa [DoubleBuffer.row, DoubleBuffer.setRow] using hfirst
  | _ => simp [hp] at hs

/-- The store of `active_index` publishes the line. -/
theorem Inv.storeIndex {s s' : DoubleBuffer} (h : s.Inv) (hs : s.step .storeIndex = some s') :
    s'.Inv := by
  have hshell := h.shell
  unfold step at hs
  cases hp : s.shell with
  | measured line next =>
    simp only [hp] at hs
    obtain rfl := Option.some.inj hs
    simp only [Publishing, hp] at hshell
    obtain ⟨rfl, hholds⟩ := hshell
    refine ⟨?_, fun l hl => ?_, trivial, fun _ => by simp, h.lua.touch rfl, h.intact⟩
    · have hslots : slots { s with
          activeIndex := !s.activeIndex
          published := s.published ++ [line.bytes]
          shell := .switched
          lua := s.touch } = s.slots.flip := by
        unfold slots Slots.flip
        rw [Slots.mk.injEq]
        exact ⟨rfl, rfl, List.length_append, s.window_touch⟩
      rw [hslots]
      exact h.kept.move .flip
    · rw [List.getLast?_concat] at hl
      obtain rfl := Option.some.inj hl
      exact hholds
  | _ => simp [hp] at hs

/-! ## The consumer's steps -/

theorem Inv.loadIndex {s s' : DoubleBuffer} (h : s.Inv) (hs : s.step .loadIndex = some s') :
    s'.Inv := by
  unfold step at hs
  cases hl : s.lua with
  | taken =>
    simp only [hl] at hs
    obtain rfl := Option.some.inj hs
    have hne := h.some_line (Or.inr (Or.inl hl))
    have hlast := List.getLast?_eq_some_getLast hne
    exact ⟨h.kept.move .load, h.active, h.shell, h.some_line_of_imp rfl id nofun id,
      ⟨_, hlast, h.active _ hlast⟩, h.intact⟩
  | _ => simp [hl] at hs

/-- Another byte, or the end of the copy: in a window with at most one
publication, the bytes got are the first of the row loaded. -/
theorem Inv.advance {s : DoubleBuffer} (h : s.Inv) {w : Window Row}
    {last : Option (List UInt8)} {len : Nat} {got : List UInt8} (hw : s.lua.window = some w)
    (hlast : ∃ l, last = some l ∧ w.content.Holds l)
    (hgot : AtMostOne w.touched → len = w.content.2 ∧ got = w.content.1.first got.length)
    (hle : got.length ≤ len) : (s.advance w last len got).Inv := by
  unfold DoubleBuffer.advance
  split
  · next hlt =>
    refine ⟨?_, h.active, h.shell, h.some_line_of_imp rfl id nofun id, ⟨hlast, hgot, hlt⟩, h.intact⟩
    have hkept := h.kept
    unfold slots at hkept ⊢
    rwa [hw] at hkept
  · next hge =>
    refine ⟨h.kept.move .release, h.active, h.shell, h.some_line_of_imp rfl id nofun id, trivial, ?_⟩
    intro c hc hone
    rcases List.mem_append.mp hc with hc | hc
    · exact h.intact c hc hone
    · obtain rfl := List.mem_singleton.mp hc
      obtain ⟨l, hl, hholds⟩ := hlast
      obtain ⟨hlen, hbytes⟩ := hgot hone
      have hall : got.length = l.length := by
        have := hholds.len
        omega
      refine ⟨l, hl, hlen.trans hholds.len, ?_⟩
      show got = l
      rw [hbytes, hall, hholds.bytes]

theorem Inv.readLen {s s' : DoubleBuffer} (h : s.Inv) (hs : s.step .readLen = some s') :
    s'.Inv := by
  have hlua := h.lua
  unfold step at hs
  cases hl : s.lua with
  | loaded w last =>
    simp only [hl] at hs
    obtain rfl := Option.some.inj hs
    simp only [Consuming, hl] at hlua
    have hw : s.lua.window = some w := by rw [hl]; rfl
    refine h.advance hw hlua (fun hone => ⟨?_, rfl⟩) (Nat.zero_le _)
    rw [← (h.kept w hw hone).1]
    rfl
  | _ => simp [hl] at hs

theorem Inv.readByte {s s' : DoubleBuffer} (h : s.Inv) (hs : s.step .readByte = some s') :
    s'.Inv := by
  have hlua := h.lua
  unfold step at hs
  cases hl : s.lua with
  | copying w last len got =>
    simp only [hl] at hs
    obtain ⟨c, hc, hs⟩ := Option.bind_eq_some_iff.mp hs
    obtain rfl := Option.some.inj hs
    simp only [Consuming, hl] at hlua
    obtain ⟨hlast, hgot, hlt⟩ := hlua
    have hw : s.lua.window = some w := by rw [hl]; rfl
    have hsucc : (got ++ [c]).length = got.length + 1 := by simp
    refine h.advance hw hlast (fun hone => ?_) (by omega)
    obtain ⟨hlen, hbytes⟩ := hgot hone
    refine ⟨hlen, ?_⟩
    -- the row is still the one loaded
    have hrow : (s.bufferPerline w.slot, _) = w.content := (h.kept w hw hone).1
    have hc : w.content.1.load got.length = some c := by rw [← hrow]; exact hc
    rw [hsucc, CArray.first_succ _ hc, ← hbytes]
  | _ => simp [hl] at hs

/-! ## Every interleaving -/

/-- The steps that touch neither the rows nor a window. -/
theorem Inv.control {s s' : DoubleBuffer} (h : s.Inv) {e : Access}
    (he : (∃ line, e = .begin line) ∨ e = .notifyGive ∨ e = .notifyTake ∨ e = .finish)
    (hs : s.step e = some s') : s'.Inv := by
  obtain ⟨line, rfl⟩ | rfl | rfl | rfl := he
  · unfold step at hs
    cases hp : s.shell with
    | idle =>
      simp only [hp] at hs
      obtain rfl := Option.some.inj hs
      refine ⟨h.kept, h.active, ⟨rfl, Nat.zero_le _, ?_⟩, h.some_line_of_imp rfl id id nofun, h.lua,
        h.intact⟩
      rw [CArray.first_zero, List.take_zero]
    | _ => simp [hp] at hs
  · unfold step at hs
    cases hp : s.shell with
    | switched =>
      simp only [hp] at hs
      obtain rfl := Option.some.inj hs
      exact ⟨h.kept, h.active, trivial, fun _ => h.some_line (Or.inr (Or.inr hp)), h.lua, h.intact⟩
    | _ => simp [hp] at hs
  · unfold step at hs
    cases hl : s.lua with
    | waiting =>
      simp only [hl] at hs
      split at hs
      · next hn =>
        obtain rfl := Option.some.inj hs
        exact ⟨Slots.kept_of_no_window rfl, h.active, h.shell, fun _ => h.some_line (Or.inl hn),
          trivial, h.intact⟩
      · cases hs
    | _ => simp [hl] at hs
  · unfold step at hs
    cases hl : s.lua with
    | working =>
      simp only [hl] at hs
      obtain rfl := Option.some.inj hs
      exact ⟨Slots.kept_of_no_window rfl, h.active, h.shell, h.some_line_of_imp rfl id nofun id,
        trivial, h.intact⟩
    | _ => simp [hl] at hs

theorem Inv.step {s s' : DoubleBuffer} {e : Access} (h : s.Inv) (hs : s.step e = some s') :
    s'.Inv := by
  cases e with
  | begin line => exact h.control (Or.inl ⟨line, rfl⟩) hs
  | copyByte => exact h.copyByte hs
  | storeNul => exact h.storeNul hs
  | storeLen => exact h.storeLen hs
  | storeIndex => exact h.storeIndex hs
  | notifyGive => exact h.control (Or.inr (Or.inl rfl)) hs
  | notifyTake => exact h.control (Or.inr (Or.inr (Or.inl rfl))) hs
  | loadIndex => exact h.loadIndex hs
  | readLen => exact h.readLen hs
  | readByte => exact h.readByte hs
  | finish => exact h.control (Or.inr (Or.inr (Or.inr rfl))) hs

end DoubleBuffer

/-! ## The same publication without interruption -/

/-- The accesses of `_ShellTask` for one line. -/
def publication (line : Line) : List Access :=
  .begin line :: List.replicate line.bytes.length .copyByte ++
    [.storeNul, .storeLen, .storeIndex, .notifyGive]

namespace DoubleBuffer

/-- `d'` is `d` but for the row `next` and the places of the two tasks. -/
structure SameBut (d : DoubleBuffer) (next : Bool) (d' : DoubleBuffer) : Prop where
  rows : ∀ j, j ≠ next → d'.bufferPerline j = d.bufferPerline j
  lens : ∀ j, j ≠ next → d'.bufferPerlineLen j = d.bufferPerlineLen j
  active : d'.activeIndex = d.activeIndex
  published : d'.published = d.published

theorem sameBut_setRow {d d₁ : DoubleBuffer} {next : Bool} (h : SameBut d next d₁) (row : Row)
    (shell : Publication) (lua : Consumer) :
    SameBut d next { d₁.setRow next row with shell := shell, lua := lua } where
  rows := by
    intro j hj
    rw [← h.rows j hj]
    exact if_neg hj
  lens := by
    intro j hj
    rw [← h.lens j hj]
    exact if_neg hj
  active := h.active
  published := h.published

/-- The bytes copied one by one are the bytes of `memcpy`. -/
theorem copyBytes_eq_memcpy (d : DoubleBuffer) (line : Line) (next : Bool)
    (hp : d.shell = .copying line next 0) (k : Nat) (hk : k ≤ line.bytes.length) :
    ∃ d', (List.replicate k Access.copyByte).foldlM step d = some d' ∧
      d'.shell = .copying line next k ∧ SameBut d next d' ∧
      (d.bufferPerline next).memcpy 0 (line.bytes.take k) = some (d'.bufferPerline next) := by
  have hfits : line.bytes.length < 64 := line.fits
  induction k with
  | zero =>
    exact ⟨d, rfl, hp, ⟨fun _ _ => rfl, fun _ _ => rfl, rfl, rfl⟩, CArray.memcpy_nil _⟩
  | succ k ih =>
    obtain ⟨d₁, hrun, hp₁, hsame, hcp⟩ := ih (by omega)
    obtain ⟨c, hc⟩ : ∃ c, line.bytes[k]? = some c := ⟨_, List.getElem?_eq_getElem (by omega)⟩
    obtain ⟨cells, hst⟩ := (d₁.bufferPerline next).store_eq_some k c (show k < 64 by omega)
    refine ⟨{ d₁.setRow next (cells, d₁.bufferPerlineLen next) with
      shell := .copying line next (k + 1), lua := d₁.touch }, ?_, rfl,
      sameBut_setRow hsame _ _ _, ?_⟩
    · rw [List.replicate_succ', List.foldlM_append, hrun]
      show List.foldlM step d₁ [Access.copyByte] = _
      rw [List.foldlM_cons]
      simp only [step, hp₁, hc, hst, Option.bind_some]
      rfl
    · rw [← CArray.store_memcpy_take hcp hc (show k < 64 by omega), hst]
      exact congrArg some (if_pos rfl).symm

/-- The rows as the console task's own model has them. -/
structure Agrees (d : DoubleBuffer) (s : Shell) : Prop where
  rows : d.bufferPerline = s.bufferPerline
  lens : d.bufferPerlineLen = s.bufferPerlineLen
  active : d.activeIndex = s.activeIndex
  published : d.published = s.published

/-- Without another step in between, the accesses are the `publish` of
`_ShellTask` as a whole. -/
theorem publication_eq_publish {d : DoubleBuffer} {s s' : Shell} (h : d.Agrees s)
    (hidle : d.shell = .idle) (line : Line) (hidx : s.index = line.bytes.length)
    (hline : s.bufferInput.first s.index = line.bytes) (hs' : s.publish = some s') :
    ∃ d', (publication line).foldlM step d = some d' ∧ d'.Agrees s' ∧ d'.shell = .idle := by
  have hfits : line.bytes.length < 64 := line.fits
  have hclamp : ¬ 64 ≤ s.index := by omega
  simp only [Shell.publish, hclamp, if_false, Option.bind_eq_some_iff] at hs'
  obtain ⟨input, hin, copied, hcp, row, hrow, hs'⟩ := hs'
  have hfirst : input.first s.index = line.bytes := by
    rw [CArray.first_store_of_le hin (Nat.le_refl _), hline]
  have hbytes : row.first s.index = line.bytes := by
    have hfirst' := CArray.first_memcpy hcp
    rw [hfirst, ← hidx, Nat.zero_add, CArray.first_zero, List.nil_append] at hfirst'
    rw [CArray.first_store_of_le hrow (Nat.le_refl _), hfirst']
  obtain rfl := Option.some.inj hs'
  let next := !d.activeIndex
  let d₀ : DoubleBuffer := { d with shell := .copying line next 0 }
  obtain ⟨d₁, hrun, hp₁, hsame, hcells⟩ :=
    copyBytes_eq_memcpy d₀ line next rfl line.bytes.length (Nat.le_refl _)
  have hcopied : copied = d₁.bufferPerline next := by
    rw [List.take_length] at hcells
    rw [hfirst, ← h.rows, ← h.active] at hcp
    exact Option.some.inj (hcp.symm.trans hcells)
  rw [hcopied, hidx] at hrow
  -- after the bytes: the NUL, the length, `active_index`, the notification
  let d₂ : DoubleBuffer := { d₁.setRow next (row, d₁.bufferPerlineLen next) with
    shell := .terminated line next, lua := d₁.touch }
  let d₃ : DoubleBuffer := { d₂.setRow next (d₂.bufferPerline next, line.bytes.length) with
    shell := .measured line next, lua := d₂.touch }
  let d₄ : DoubleBuffer := { d₃ with
    activeIndex := next
    published := d₃.published ++ [line.bytes]
    shell := .idle
    notified := true
    lua := d₃.touch }
  have hsame₃ : SameBut d₀ next d₃ := sameBut_setRow (sameBut_setRow hsame _ _ _) _ _ _
  have hbegin : d.step (.begin line) = some d₀ := by simp only [step, hidle]; rfl
  refine ⟨d₄, ?_, ⟨?_, ?_, ?_, ?_⟩, rfl⟩
  · rw [publication, List.cons_append, List.foldlM_cons, hbegin]
    show List.foldlM step d₀ (_ ++ _) = _
    rw [List.foldlM_append, hrun]
    show List.foldlM step d₁ [.storeNul, .storeLen, .storeIndex, .notifyGive] = _
    have hnul : d₁.step .storeNul = some d₂ := by
      simp only [step, hp₁, if_true, hrow, Option.bind_some]
      rfl
    rw [List.foldlM_cons, hnul]
    rfl
  · funext j
    show d₃.bufferPerline j = if j = !s.activeIndex then row else s.bufferPerline j
    rw [← h.active, ← h.rows]
    by_cases hj : j = next
    · rw [if_pos hj, hj]
      simp [d₃, d₂, setRow]
    · rw [if_neg hj]
      exact hsame₃.rows j hj
  · funext j
    show d₃.bufferPerlineLen j = if j = !s.activeIndex then s.index else s.bufferPerlineLen j
    rw [← h.active, ← h.lens, hidx]
    by_cases hj : j = next
    · rw [if_pos hj, hj]
      simp [d₃, setRow]
    · rw [if_neg hj]
      exact hsame₃.lens j hj
  · show next = !s.activeIndex
    rw [← h.active]
  · show d₃.published ++ [line.bytes] = s.published ++ [row.first s.index]
    rw [hbytes, hsame₃.published, ← h.published]

end DoubleBuffer

/-- **The double buffer.**  In every interleaving, a copy with at most one
publication in its window is the line published last before its load. -/
theorem double_buffer_intact (es : List Access) :
    doubleBuffer.Always DoubleBuffer.Intact es :=
  Machine.always_mono (fun _ h => h.intact)
    (Machine.always_of_step DoubleBuffer.inv_start (fun _ _ _ h hs => h.step hs) es)

end CLIos
