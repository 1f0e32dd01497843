import CLIos.Core.Locking
import CLIos.Lib.Sections
import CLIos.Sys.LineStore

/-!
# The file module called by many tasks

The functions of components/SYS/sys_littlefs.c are no steps of the system: between
`fopen` and `fclose` another task may be scheduled.  A `FileModule` is any way to
divide them that does, when no other call comes in between, what `Fs.step` says;
`stdio` is the one in calls of the C library, with a stream that stores what it was
given when it is closed.

Lua code runs in `luaL_dofile` and `lua_pcall` (`runsLua`), boot.lua and the
functions of `task.create` under `luaMutex`, statements of the console and handlers
without it.
-/

namespace CLIos

open CMem Runs TextFile Locking

structure FileModule (σ ν : Type) where
  object : Object σ FsCall ν FsResult
  files : σ → Files
  alone : ∀ c s s' r, Does object c s s' r → ∀ results,
    Fs.step ⟨files s, results⟩ c = some ⟨files s', results ++ [r]⟩

/-! ## The calls of the C library -/

/-- Where a function of the module is, and its locals. -/
inductive FsFrame where
  | called (c : FsCall)
  /-- `L_FS_WRITE` with its stream -/
  | appending (filename : FileName) (w : WriteCall)
  /-- `L_FS_READ` in its loop -/
  | reading (filename : FileName) (offset : Nat) (st : Nat × LuaTable)
  /-- `L_FS_EDIT` in its first loop -/
  | editing (filename : FileName) (offset index : Nat) (content : Bytes) (writable : Bool)
      (e : EditLines)
  /-- `L_FS_EDIT` before its second `fopen` -/
  | saving (filename : FileName) (writable : Bool) (e : EditLines)
  /-- `L_FS_EDIT` in its last loop -/
  | printing (filename : FileName) (e : EditLines) (i : Nat) (out : Bytes)

namespace FsFrame

/-- `L_FS_EDIT` after its first loop: the lines changed, or the answer. -/
def change (filename : FileName) (index : Nat) (content : Bytes) (writable : Bool) (e : EditLines) :
    Option (FsFrame ⊕ FsResult) :=
  if cstr content = [] ∧ e.count ≤ index then
    some (.inr (.refused "index out of range for delete"))
  else
    (if cstr content = [] then e.deleteLine index else e.replaceLine index content).map
      fun e => .inl (saving filename writable e)

/-- The first call of a function, and of those that make only one the answer. -/
def enter (files : Files) : FsCall → Files × (FsFrame ⊕ FsResult)
  | .write filename w =>
    if w.opens then
      (files.update filename (some ((files filename).getD [])), .inl (appending filename w))
    else (files, .inr (.refused ("failed to open file: " ++ filename.text)))
  | .read filename =>
    match files filename with
    | none => (files, .inr (.refused "file not found"))
    | some _ => (files, .inl (reading filename 0 (1, fun _ => none)))
  | .edit filename i content writable stack =>
    let index := (i % 256).toNat
    if index = 0 ∨ CHAR_BUFFER_SIZE < index then (files, .inr (.refused "index out of range"))
    else
      match files filename with
      | none => (files, .inr (.refused "failed to open file for read"))
      | some _ => (files, .inl (editing filename 0 index content writable ⟨stack, 0⟩))
  | .remove filename fails =>
    let (r, files) := lFsRemove filename files fails
    (files, .inr (.ofBool r))
  | .rename oldname newname fails =>
    let (r, files) := lFsRename oldname newname files fails
    (files, .inr (.ofBool r))
  | .size filename fails => (files, .inr (.ofSize (lFsSize filename.text (files filename) fails)))

/-- What `fgets` finds in the file from `offset` on. -/
def fgetsAt (files : Files) (filename : FileName) (offset : Nat) : Option Bytes :=
  (fgets (CHAR_BUFFER_SIZE - 1) (((files filename).getD []).drop offset)).map Prod.fst

def micro (files : Files) : FsFrame → Option (Files × (FsFrame ⊕ FsResult))
  | called c => some (enter files c)
  | appending filename w =>
    some (files.update filename
      (some ((files filename).getD [] ++ (cstr w.content).take w.accepted)),
      .inr (.boolean (decide (0 < w.accepted))))
  | reading filename offset st =>
    match fgetsAt files filename offset with
    | none => some (files, .inr (.table st.2))
    | some p => (readRound st p).map fun st => (files, .inl (reading filename (offset + p.length) st))
  | editing filename offset index content writable e =>
    match fgetsAt files filename offset with
    | none => (change filename index content writable e).map fun next => (files, next)
    | some p =>
      (e.readRound p).map fun e =>
        (files, .inl (editing filename (offset + p.length) index content writable e))
  | saving filename writable e =>
    if writable then some (files.update filename (some []), .inl (printing filename e 0 []))
    else some (files, .inr (.refused "failed to open file for write"))
  | printing filename e i out =>
    if i < e.count then
      (e.lines.load i).map fun row =>
        (files, .inl (printing filename e ((i + 1) % 256) (out ++ (row ++ [newline]))))
    else some (files.update filename (some out), .inr (.boolean true))

end FsFrame

/-! ## The calls alone -/

namespace FsFrame

/-- What `L_FS_EDIT` comes to after its first loop. -/
def edited (files : Files) (filename : FileName) (index : Nat) (content : Bytes) (writable : Bool)
    (e : EditLines) : Option (Except String Bool × File) :=
  if cstr content = [] ∧ e.count ≤ index then
    some (.error "index out of range for delete", files filename)
  else
    (if cstr content = [] then e.deleteLine index else e.replaceLine index content).bind
      fun e => e.save (files filename) writable

/-- The files with the one that an edit leaves. -/
def stored (files : Files) (filename : FileName) (r : Except String Bool × File) :
    Files × FsResult :=
  (files.update filename r.2, .ofBool r.1)

/-- What a function comes to that goes on alone. -/
def goesOn (files : Files) : FsFrame → Option (Files × FsResult)
  | called _ => none
  | appending filename w =>
    some (files.update filename
      (some ((files filename).getD [] ++ (cstr w.content).take w.accepted)),
      .boolean (decide (0 < w.accepted)))
  | reading filename offset st =>
    (whileFgets (CHAR_BUFFER_SIZE - 1) readRound (((files filename).getD []).drop offset) st).map
      fun st => (files, .table st.2)
  | editing filename offset index content writable e =>
    ((whileFgets (CHAR_BUFFER_SIZE - 1) EditLines.readRound
      (((files filename).getD []).drop offset) e).bind
        (edited files filename index content writable)).map (stored files filename)
  | saving filename writable e =>
    (e.save (files filename) writable).map (stored files filename)
  | printing filename e i out =>
    (loop8 (fun i => decide (i < e.count))
      (fun i out => (e.lines.load i).map fun row => out ++ (row ++ [newline])) i out).map
        fun out => (files.update filename (some out), .boolean true)

def outcome (files : Files) : FsFrame → Option (Files × FsResult)
  | called c =>
    match enter files c with
    | (files, .inl next) => goesOn files next
    | (files, .inr r) => some (files, r)
  | next => goesOn files next

variable {files files' : Files} {frame : FsFrame} {next : FsFrame ⊕ FsResult} {r : FsResult}

def resume (files : Files) : FsFrame ⊕ FsResult → Option (Files × FsResult) :=
  Sum.elim (outcome files) fun r => some (files, r)

/-- No frame is at its first call again. -/
theorem enter_ne_called (c c' : FsCall) : enter files c ≠ (files', .inl (called c')) := by
  intro h
  cases c with
  | write filename w =>
    simp only [enter] at h
    split at h <;> cases h
  | read filename =>
    simp only [enter] at h
    split at h <;> cases h
  | edit filename i content writable stack =>
    simp only [enter] at h
    split at h
    · cases h
    · split at h <;> cases h
  | _ => cases h

theorem outcome_called {c : FsCall} (h : enter files c = (files', next)) :
    outcome files (called c) = resume files' next := by
  show (match enter files c with
    | (files, .inl next) => goesOn files next
    | (files, .inr r) => some (files, r)) = _
  rw [h]
  cases next with
  | inl next =>
    cases next with
    | called c' => exact absurd h (enter_ne_called c c')
    | _ => rfl
  | inr r => rfl

theorem resume_change {filename : FileName} {index : Nat} {content : Bytes} {writable : Bool}
    {e : EditLines} (h : change filename index content writable e = some next) :
    (edited files filename index content writable e).map (stored files filename) =
      resume files next := by
  unfold change at h
  unfold edited
  split at h
  · next hc =>
    cases h
    rw [if_pos hc]
    show some (files.update filename (files filename), _) = _
    rw [Files.update_self]
    rfl
  · next hc =>
    obtain ⟨e', he, rfl⟩ := Option.map_eq_some_iff.mp h
    rw [if_neg hc, he]
    rfl

/-- No step changes what the function comes to. -/
theorem outcome_micro (h : micro files frame = some (files', next)) :
    outcome files frame = resume files' next := by
  cases frame with
  | called c => exact outcome_called (Option.some.inj h)
  | appending filename w =>
    cases h
    rfl
  | reading filename offset st =>
    show ((whileFgets 63 readRound _ st).map _) = _
    rw [whileFgets_drop 63 (by decide)]
    cases hp : fgetsAt files filename offset with
    | none =>
      simp only [micro, hp] at h
      cases h
      rw [show (fgets 63 _).map Prod.fst = none from hp]
      rfl
    | some p =>
      simp only [micro, hp] at h
      obtain ⟨st', hst, heq⟩ := Option.map_eq_some_iff.mp h
      cases heq
      rw [show (fgets 63 _).map Prod.fst = some p from hp]
      show ((readRound st p).bind _).map _ = _
      rw [hst]
      rfl
  | editing filename offset index content writable e =>
    show (((whileFgets 63 EditLines.readRound _ e).bind _).map _) = _
    rw [whileFgets_drop 63 (by decide)]
    cases hp : fgetsAt files filename offset with
    | none =>
      simp only [micro, hp] at h
      obtain ⟨n, hn, heq⟩ := Option.map_eq_some_iff.mp h
      cases heq
      rw [show (fgets 63 _).map Prod.fst = none from hp]
      exact resume_change hn
    | some p =>
      simp only [micro, hp] at h
      obtain ⟨e', he, heq⟩ := Option.map_eq_some_iff.mp h
      cases heq
      rw [show (fgets 63 _).map Prod.fst = some p from hp]
      show (((e.readRound p).bind _).bind _).map _ = _
      rw [he]
      rfl
  | saving filename writable e =>
    show (e.save (files filename) writable).map _ = _
    simp only [micro] at h
    unfold EditLines.save
    split at h
    · next hw =>
      cases h
      rw [if_pos hw, Option.map_map]
      show _ = Option.map _ _
      simp only [Files.update_update]
      rfl
    · next hw =>
      cases h
      rw [if_neg hw]
      show some (files.update filename (files filename), _) = _
      rw [Files.update_self]
      rfl
  | printing filename e i out =>
    show Option.map _ (loop8 _ _ i out) = _
    rw [loop8_step]
    simp only [micro] at h
    split at h
    · next hi =>
      obtain ⟨row, hrow, heq⟩ := Option.map_eq_some_iff.mp h
      cases heq
      rw [if_pos hi, hrow]
      rfl
    · next hi =>
      cases h
      rw [if_neg hi]
      rfl

/-- A call that goes on alone from its first step does what `Fs.step` says. -/
theorem step_of_outcome {c : FsCall} (h : outcome files (called c) = some (files', r))
    (results : List FsResult) : Fs.step ⟨files, results⟩ c = some ⟨files', results ++ [r]⟩ := by
  have henter : ∀ files₁ next, enter files c = (files₁, next) →
      resume files₁ next = some (files', r) := by
    intro files₁ next hn
    exact (outcome_called hn).symm.trans h
  cases c with
  | write filename w =>
    simp only [Fs.step, lFsWrite]
    cases hopens : w.opens with
    | true =>
      have hr := henter _ _ (if_pos hopens)
      cases hr
      rw [if_pos rfl, Files.update_update, Files.update_apply_self]
      rfl
    | false =>
      have hr := henter _ _ (if_neg (by rw [hopens]; decide))
      cases hr
      rw [if_neg (by decide), Files.update_self]
      rfl
  | read filename =>
    simp only [enter] at henter
    simp only [Fs.step]
    cases hfile : files filename with
    | none =>
      rw [hfile] at henter
      cases henter _ _ rfl
      rfl
    | some s =>
      rw [hfile] at henter
      have hr : Option.map _ (whileFgets 63 readRound ((files filename).getD []) _) = _ :=
        henter _ _ rfl
      rw [hfile] at hr
      obtain ⟨st, hst, heq⟩ := Option.map_eq_some_iff.mp hr
      cases heq
      have hread : lFsRead (some s) = some (.ok st.2) := by
        show Option.map _ (whileFgets 63 readRound s _) = _
        rw [show whileFgets 63 readRound s _ = some st from hst]
        rfl
      rw [hread]
      rfl
  | edit filename i content writable stack =>
    simp only [enter] at henter
    simp only [Fs.step, lFsEdit]
    split at henter
    · next hindex =>
      cases henter _ _ rfl
      rw [if_pos hindex]
      show some (Fs.answer _ _ (files.update filename (files filename))) = _
      rw [Files.update_self]
      rfl
    · next hindex =>
      rw [if_neg hindex]
      cases hfile : files filename with
      | none =>
        rw [hfile] at henter
        cases henter _ _ rfl
        show some (Fs.answer _ _ (files.update filename none)) = _
        rw [← hfile, Files.update_self]
        rfl
      | some s =>
        rw [hfile] at henter
        have hr : Option.map _ (Option.bind
          (whileFgets 63 EditLines.readRound ((files filename).getD []) _) _) = _ := henter _ _ rfl
        unfold edited at hr
        rw [hfile] at hr
        obtain ⟨x, hx, heq⟩ := Option.map_eq_some_iff.mp hr
        cases heq
        have hx : Option.bind (whileFgets 63 EditLines.readRound s _) _ = some x := hx
        show Option.map _ (Option.bind (whileFgets 63 EditLines.readRound s _) _) = _
        rw [hx]
        rfl
  | remove filename fails =>
    cases henter _ _ rfl
    rfl
  | rename oldname newname fails =>
    cases henter _ _ rfl
    rfl
  | size filename fails =>
    cases henter _ _ rfl
    rfl

end FsFrame

def stdio : FileModule Files FsFrame where
  object := ⟨.called, fun frame files => frame.micro files⟩
  files := id
  alone := fun _ _ _ _ h => FsFrame.step_of_outcome (h.eq (f := fun frame files =>
    frame.outcome files) fun _ _ _ _ => FsFrame.outcome_micro)

/-! ## Many tasks -/

/-- The calls that run Lua code. -/
def TaskPoint.runsLua : TaskPoint → Bool
  | doFile | pcallLine | pcallWorker | pcallHandler => true
  | _ => false

variable {σ ν : Type}

def sharedFiles (M : FileModule σ ν) (s₀ : σ) :
    Machine (Shared TaskPoint σ FsCall ν FsResult) (SharedEvent TaskPoint FsCall) :=
  shared luaTasks TaskPoint.runsLua M.object s₀

namespace FileModule

/-- One call at most is under way; the others have returned what they return, and the
files are what they leave, if they are made one after the other. -/
def OneByOne (M : FileModule σ ν) (s₀ : σ) (s : Shared TaskPoint σ FsCall ν FsResult) : Prop :=
  (∀ t u, (s.active t).isSome = true → (s.active u).isSome = true → t = u) ∧
    ∃ a, (fs.restart ⟨M.files s₀, []⟩).run (s.finished.map Prod.fst) = some a ∧
      s.finished.map Prod.snd = a.results ∧
        ((∀ t, s.active t = none) → M.files s.store = a.files)

/-- Calls of programs that keep to lines have returned what they return on a store of lines. -/
def OneStore (M : FileModule σ ν) (lines₀ : Lines) (s : Shared TaskPoint σ FsCall ν FsResult) :
    Prop :=
  ∀ cs a, s.finished.map Prod.fst = cs.map StoreCall.call →
    (lineStore.restart ⟨lines₀, []⟩).run cs = some a →
      s.finished.map Prod.snd = a.results ∧
        ((∀ t, s.active t = none) → ∀ p, M.files s.store p = (a.lines p).map textOf)

variable {M : FileModule σ ν} {s₀ : σ} {s : Shared TaskPoint σ FsCall ν FsResult}

theorem run_of_serial {cs : List (FsCall × FsResult)} {q : σ} (h : Serial M.object s₀ cs q) :
    (fs.restart ⟨M.files s₀, []⟩).run (cs.map Prod.fst) =
      some ⟨M.files q, cs.map Prod.snd⟩ := by
  have hstep : ∀ s rs (a : Fs) c s' r, a = ⟨M.files s, rs⟩ → Does M.object c s s' r →
      ∃ a', a.step c = some a' ∧ a' = ⟨M.files s', rs ++ [r]⟩ := by
    rintro s rs a c s' r rfl hd
    exact ⟨_, M.alone c s s' r hd rs, rfl⟩
  obtain ⟨a, ha, rfl⟩ := h.run (N := fs.restart ⟨M.files s₀, []⟩) rfl hstep
  exact ha

theorem oneByOne_of_progress (h : s.Progress M.object s₀) : M.OneByOne s₀ s := by
  cases h with
  | quiet hactive hs =>
    refine ⟨fun t u ht => ?_, _, run_of_serial hs, rfl, fun _ => rfl⟩
    rw [hactive] at ht
    cases ht
  | busy t c l q hactive hs hw =>
    have hone : ∀ u, (s.active u).isSome = true → u = t := by
      intro u hu
      by_contra hne
      rw [hactive, Function.update_of_ne hne] at hu
      cases hu
    refine ⟨fun u v hu hv => (hone u hu).trans (hone v hv).symm, _, run_of_serial hs, rfl,
      fun hnone => ?_⟩
    have ht := hnone t
    rw [hactive, Function.update_self] at ht
    cases ht

theorem OneByOne.oneStore (h : M.OneByOne s₀ s) {lines₀ : Lines}
    (hlines : ∀ p, M.files s₀ p = (lines₀ p).map textOf) : M.OneStore lines₀ s := by
  intro cs a hcs ha
  obtain ⟨-, b, hb, hresults, hfiles⟩ := h
  have hstart : Holds ⟨lines₀, []⟩ ⟨M.files s₀, []⟩ := ⟨hlines, rfl⟩
  obtain ⟨b', hb', hholds⟩ := hstart.run cs ha
  rw [← hcs] at hb'
  obtain rfl := Option.some.inj (hb.symm.trans hb')
  refine ⟨hresults.trans hholds.results, fun hnone p => ?_⟩
  rw [hfiles hnone]
  exact hholds.files p

end FileModule

/-- **Files shared by tasks.**  As long as no call of the file module that is made without
`luaMutex` overlaps another one, the calls of all tasks return what they return one
after the other, in the order in which they end, however their steps are interleaved,
and those that keep to lines what they return on one store of lines. -/
theorem files_one_by_one (M : FileModule σ ν) (s₀ : σ) (es : List (SharedEvent TaskPoint FsCall))
    (h : (sharedFiles M s₀).Along (Shared.Apart TaskPoint.locked) es) :
    (sharedFiles M s₀).Always (fun s => M.OneByOne s₀ s ∧
      ∀ lines₀, (∀ p, M.files s₀ p = (lines₀ p).map textOf) → M.OneStore lines₀ s) es := by
  refine Machine.always_mono (fun s hprogress => ?_)
    (serial_of_apart luaTasks_discipline TaskPoint.runsLua M.object s₀ es h)
  have hone := FileModule.oneByOne_of_progress hprogress
  exact ⟨hone, fun _ hlines => hone.oneStore hlines⟩

/-- Calls of boot.lua and of tasks have the mutex, so that they never overlap. -/
theorem locked_files_one_by_one (M : FileModule σ ν) (s₀ : σ)
    (es : List (SharedEvent TaskPoint FsCall))
    (h : (sharedFiles M s₀).Along (Shared.Guarded TaskPoint.locked) es) :
    (sharedFiles M s₀).Always (M.OneByOne s₀) es :=
  Machine.always_mono (fun _ hprogress => FileModule.oneByOne_of_progress hprogress)
    (serial_of_apart luaTasks_discipline TaskPoint.runsLua M.object s₀ es
      (Shared.apart_of_guarded s₀ es h))

instance (guarded : TaskPoint → Bool) (s : Shared TaskPoint σ FsCall ν FsResult)
    (e : SharedEvent TaskPoint FsCall) : Decidable (s.Apart guarded e) :=
  match e with
  | .invoke _ _ => Nat.decidableBallLT _ _
  | .control _ | .work _ => isTrue trivial

/-- boot.lua starts two tasks, and both append a line to a file; app_main goes on
between the steps of the first, and then the second takes its size. -/
def twoWriters : List (SharedEvent TaskPoint FsCall) :=
  let write : FsCall := .write .a ⟨[97, 10], true, 2, by decide⟩
  [.control (.enter 0), .control (.leave 0 .takeBoot), .control (.move 0 .statBoot),
    .control (.move 0 .doFile), .control (.enter 0), .control (.spawn 0 .receive),
    .control (.spawn 0 .receive), .control (.leave 0 .giveBoot), .control (.move 0 .createShell),
    .control (.move 1 .testStop), .control (.move 1 .takeWorker), .control (.move 1 .rawgeti),
    .control (.enter 1), .control (.leave 1 .pcallWorker), .control (.enter 1),
    .invoke 1 write, .work 1, .control (.move 2 .testStop), .control (.move 0 .createLua),
    .control (.move 2 .takeWorker), .work 1, .control (.leave 1 .giveWorker),
    .control (.move 1 .delayUntil), .control (.move 2 .rawgeti), .control (.enter 2),
    .control (.leave 2 .pcallWorker), .control (.enter 2), .invoke 2 write, .work 2,
    .control (.move 0 .mainReturned), .work 2, .invoke 2 (.size .a false), .work 2]

theorem files_one_by_one_two : ∃ s,
    (sharedFiles stdio fun _ => none).run twoWriters = some s ∧
      s.finished.map Prod.snd = [.boolean true, .boolean true, .integer 4] ∧
        stdio.OneByOne (fun _ => none) s :=
  ⟨_, rfl, rfl, (files_one_by_one stdio (fun _ => none) twoWriters
    (Machine.along_of_check _ _ (by decide)) _ _ List.prefix_rfl rfl).1⟩

end CLIos
