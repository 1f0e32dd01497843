import CLIos.Sys.EditRead
import CLIos.Lib.Machine
import Mathlib.Data.List.InsertIdx

/-!
# The file module as a store of lines

All functions of components/SYS/sys_littlefs.c that change or look at files, on
all files at once (`Fs`): a run is the list of calls, each with what the C library
answers this time, and `results` collects what the Lua code gets to see.  The
calls name files as `FileName` has it, so that a file has one name; the firmware
makes no directory.

What the module is for is `LineStore`: every name has a list of lines or nothing.
A line there is one that the fixed buffers carry whole (`FileLine`), so that no
other can be built.  The calls of a program that keeps to such lines, to 64 of
them in a file it edits and 255 in one it reads (`LineStore.step` is not defined
otherwise), are those calls on the store: every run of the store is a run of the
code with the same results, and the files are the texts of the lines.
-/

namespace CLIos

open CMem Runs TextFile

/-! ## The calls, as the code has them -/

/-- What a call returns: one value, or nil and the message. -/
inductive FsResult where
  | boolean (b : Bool)
  | table (t : LuaTable)
  | integer (n : Nat)
  | refused (msg : String)

def FsResult.ofBool : Except String Bool → FsResult
  | .ok b => .boolean b
  | .error msg => .refused msg

def FsResult.ofTable : Except String LuaTable → FsResult
  | .ok t => .table t
  | .error msg => .refused msg

def FsResult.ofSize : Except String Nat → FsResult
  | .ok n => .integer n
  | .error msg => .refused msg

/-- `MOUNT_PATH` -/
def mountPath : List Char := "/home".toList

/-- A part of a path that stands for an entry of its own. -/
def plainPart (part : List Char) : Bool :=
  !(part.isEmpty || part == ['.'] || part == ['.', '.'] || part.contains '\x00')

/-- The mount point and the parts behind it, each after a slash. -/
def canonicalName (text : List Char) : Bool :=
  mountPath.isPrefixOf text &&
    match (text.drop mountPath.length).splitOn '/' with
    | before :: part :: parts => before.isEmpty && (part :: parts).all plainPart
    | _ => false

/-- A name below the mount point that no other one is the same as: C ends a name at a
NUL, and the file system skips empty parts and dots. -/
structure FileName where
  text : String
  canonical : canonicalName text.toList = true
deriving DecidableEq

abbrev Files := FileName → File

def Files.update (files : Files) (name : FileName) (file : File) : Files :=
  fun p => if p = name then file else files p

/-- `remove(filename)` returns 0 if there is such a file and nothing else `fails`. -/
def lFsRemove (filename : FileName) (files : Files) (fails : Bool) : Except String Bool × Files :=
  match files filename, fails with
  | some _, false => (.ok true, files.update filename none)
  | _, _ => (.error "failed to remove file", files)

/-- `rename(oldname, newname)`: a file under the new name is replaced. -/
def lFsRename (oldname newname : FileName) (files : Files) (fails : Bool) :
    Except String Bool × Files :=
  match files oldname, fails with
  | some s, false => (.ok true, (files.update oldname none).update newname (some s))
  | _, _ => (.error "failed to rename file", files)

/-- `st.st_size`, if `stat` returns 0. -/
def lFsSize (filename : String) (file : File) (fails : Bool) : Except String Nat :=
  match file, fails with
  | some s, false => .ok s.length
  | _, _ => .error ("failed to stat file: " ++ filename)

inductive FsCall where
  | write (filename : FileName) (w : WriteCall)
  | read (filename : FileName)
  | edit (filename : FileName) (index : Int) (content : Bytes) (writable : Bool)
      (stack : CArray Bytes CHAR_BUFFER_SIZE)
  | remove (filename : FileName) (fails : Bool)
  | rename (oldname newname : FileName) (fails : Bool)
  | size (filename : FileName) (fails : Bool)

structure Fs where
  files : Files
  results : List FsResult

namespace Fs

def start : Fs := ⟨fun _ => none, []⟩

/-- After a call that returns `r` and leaves `files`. -/
def answer (s : Fs) (r : FsResult) (files : Files) : Fs := ⟨files, s.results ++ [r]⟩

def step (s : Fs) : FsCall → Option Fs
  | .write filename w =>
    let (r, file) := lFsWrite filename.text (s.files filename) w
    some (s.answer (.ofBool r) (s.files.update filename file))
  | .read filename =>
    (lFsRead (s.files filename)).map fun r => s.answer (.ofTable r) s.files
  | .edit filename index content writable stack =>
    (lFsEdit stack (s.files filename) index content writable).map fun (r, file) =>
      s.answer (.ofBool r) (s.files.update filename file)
  | .remove filename fails =>
    let (r, files) := lFsRemove filename s.files fails
    some (s.answer (.ofBool r) files)
  | .rename oldname newname fails =>
    let (r, files) := lFsRename oldname newname s.files fails
    some (s.answer (.ofBool r) files)
  | .size filename fails =>
    some (s.answer (.ofSize (lFsSize filename.text (s.files filename) fails)) s.files)

end Fs

def fs : Machine Fs FsCall where
  init := Fs.start
  step := Fs.step

/-! ## The store of lines -/

/-- A line that every function of the module carries whole. -/
structure FileLine where
  bytes : Bytes
  oneLine : newline ∉ bytes
  text : 0 ∉ bytes
  short : bytes.length ≤ 62

def FileLine.empty : FileLine := ⟨[], by simp, by simp, by decide⟩

/-- The line at `n`, counted from 0, with empty lines before it if need be. -/
def putLine (ls : List FileLine) (n : Nat) (line : FileLine) : List FileLine :=
  if n < ls.length then ls.set n line
  else ls ++ List.replicate (n - ls.length) FileLine.empty ++ [line]

/-- The lines under 1, 2, and so on. -/
def numbered (ls : List FileLine) : LuaTable :=
  fun k => if k = 0 then none else ls[k - 1]?.map FileLine.bytes

/-- The bytes of the lines with their newlines. -/
def sizeOfLines : List FileLine → Nat
  | [] => 0
  | l :: ls => sizeOfLines ls + (l.bytes.length + 1)

/-- The calls of a program that keeps to lines, with what the C library answers. -/
inductive StoreCall where
  | append (filename : FileName) (ls : List FileLine) (opens : Bool)
  | read (filename : FileName)
  | replace (filename : FileName) (n : Nat) (line : FileLine) (nonempty : line.bytes ≠ [])
      (writable : Bool) (stack : CArray Bytes CHAR_BUFFER_SIZE)
  | delete (filename : FileName) (n : Nat) (writable : Bool) (stack : CArray Bytes CHAR_BUFFER_SIZE)
  | remove (filename : FileName) (fails : Bool)
  | rename (oldname newname : FileName) (fails : Bool)
  | size (filename : FileName) (fails : Bool)

abbrev Lines := FileName → Option (List FileLine)

structure LineStore where
  lines : Lines
  results : List FsResult

def Lines.update (lines : Lines) (name : FileName) (ls : Option (List FileLine)) : Lines :=
  fun p => if p = name then ls else lines p

namespace LineStore

def start : LineStore := ⟨fun _ => none, []⟩

def answer (a : LineStore) (r : FsResult) (lines : Lines) : LineStore := ⟨lines, a.results ++ [r]⟩

/-- The edited lines are stored, or the file cannot be opened for it. -/
def saved (a : LineStore) (filename : FileName) (writable : Bool) (ls : List FileLine) : LineStore :=
  if writable then a.answer (.boolean true) (a.lines.update filename (some ls))
  else a.answer (.refused "failed to open file for write") a.lines

def step (a : LineStore) : StoreCall → Option LineStore
  | .append filename ls opens =>
    some (if opens then
      a.answer (.boolean !ls.isEmpty)
        (a.lines.update filename (some ((a.lines filename).getD [] ++ ls)))
    else a.answer (.refused ("failed to open file: " ++ filename.text)) a.lines)
  | .read filename =>
    match a.lines filename with
    | none => some (a.answer (.refused "file not found") a.lines)
    | some ls => if ls.length ≤ 255 then some (a.answer (.table (numbered ls)) a.lines) else none
  | .replace filename n line _ writable _ =>
    if n = 0 ∨ 64 < n ∧ n ≤ 255 then some (a.answer (.refused "index out of range") a.lines)
    else if 64 ≤ n then none
    else
      match a.lines filename with
      | none => some (a.answer (.refused "failed to open file for read") a.lines)
      | some ls =>
        if ls.length ≤ 64 then some (a.saved filename writable (putLine ls n line)) else none
  | .delete filename n writable _ =>
    if n = 0 ∨ 64 < n ∧ n ≤ 255 then some (a.answer (.refused "index out of range") a.lines)
    else if 64 < n then none
    else
      match a.lines filename with
      | none => some (a.answer (.refused "failed to open file for read") a.lines)
      | some ls =>
        if 64 < ls.length then none
        else if n < ls.length then some (a.saved filename writable (ls.eraseIdx n))
        else some (a.answer (.refused "index out of range for delete") a.lines)
  | .remove filename fails =>
    some (match a.lines filename, fails with
    | some _, false => a.answer (.boolean true) (a.lines.update filename none)
    | _, _ => a.answer (.refused "failed to remove file") a.lines)
  | .rename oldname newname fails =>
    some (match a.lines oldname, fails with
    | some ls, false =>
      a.answer (.boolean true) ((a.lines.update oldname none).update newname (some ls))
    | _, _ => a.answer (.refused "failed to rename file") a.lines)
  | .size filename fails =>
    some (match a.lines filename, fails with
    | some ls, false => a.answer (.integer (sizeOfLines ls)) a.lines
    | _, _ => a.answer (.refused ("failed to stat file: " ++ filename.text)) a.lines)

end LineStore

def lineStore : Machine LineStore StoreCall where
  init := LineStore.start
  step := LineStore.step

/-! ## The store in the files -/

/-- The text of the lines, each with its newline. -/
def textOf (ls : List FileLine) : Bytes := unlines (ls.map FileLine.bytes)

theorem zero_not_mem_textOf (ls : List FileLine) : 0 ∉ textOf ls := by
  intro h
  obtain ⟨r, hr, h0⟩ := List.mem_flatMap.mp h
  obtain ⟨l, -, rfl⟩ := List.mem_map.mp hr
  rcases List.mem_append.mp h0 with h0 | h0
  · exact l.text h0
  · exact absurd (List.mem_singleton.mp h0) (by decide)

theorem textOf_append (ls ls' : List FileLine) : textOf (ls ++ ls') = textOf ls ++ textOf ls' := by
  rw [textOf, List.map_append, unlines_append]
  rfl

theorem length_textOf (ls : List FileLine) :
    (textOf ls).length = sizeOfLines ls := by
  induction ls with
  | nil => rfl
  | cons l ls ih =>
    have hcons : textOf (l :: ls) = (l.bytes ++ [newline]) ++ textOf ls := rfl
    rw [hcons, List.length_append, List.length_append, List.length_singleton, ih,
      sizeOfLines, Nat.add_comm]

/-- The program's calls as the code gets them: the text appended is accepted
whole, and an empty content deletes. -/
def StoreCall.call : StoreCall → FsCall
  | .append filename ls opens =>
    .write filename ⟨textOf ls, opens, (cstr (textOf ls)).length, Nat.le_refl _⟩
  | .read filename => .read filename
  | .replace filename n line _ writable stack => .edit filename n line.bytes writable stack
  | .delete filename n writable stack => .edit filename n [] writable stack
  | .remove filename fails => .remove filename fails
  | .rename oldname newname fails => .rename oldname newname fails
  | .size filename fails => .size filename fails

/-- The files hold the texts of the lines, and the same was returned. -/
structure Holds (a : LineStore) (s : Fs) : Prop where
  files : ∀ p, s.files p = (a.lines p).map textOf
  results : s.results = a.results

theorem FileLine.cstr_bytes (l : FileLine) : cstr l.bytes = l.bytes := cstr_of_not_mem l.text

/-- Lines that fit are read back as they are. -/
theorem readRows_textOf (ls : List FileLine) : readRows (textOf ls) = ls.map FileLine.bytes := by
  have hmem : ∀ r ∈ ls.map FileLine.bytes, newline ∉ r ∧ 0 ∉ r ∧ r.length ≤ 62 := by
    intro r hr
    obtain ⟨l, -, rfl⟩ := List.mem_map.mp hr
    exact ⟨l.oneLine, l.text, l.short⟩
  rw [textOf, readRows_unlines _ fun r hr => ⟨(hmem r hr).1, (hmem r hr).2.1, by
    have := (hmem r hr).2.2
    omega⟩]
  refine flatMap_reread_of_ne _ fun r hr => ?_
  have := (hmem r hr).2.2
  omega

theorem length_readRows_textOf (ls : List FileLine) :
    (readRows (textOf ls)).length = ls.length := by
  rw [readRows_textOf, List.length_map]

theorem numbered_eq (ls : List FileLine) (h : ls.length ≤ 255) :
    tableOf (readRows (textOf ls)) = numbered ls := by
  funext k
  rw [readRows_textOf, tableOf_eq _ (by rw [List.length_map]; exact h), List.getElem?_map]
  rfl

/-- The lines of the store with one replaced are the rows that the code writes. -/
theorem unlines_replace (ls : List FileLine) (n : Nat) (line : FileLine)
    (hne : line.bytes ≠ []) :
    unlines (editLines (readRows (textOf ls)) n line.bytes) = textOf (putLine ls n line) := by
  have hshort := line.short
  rw [editLines, line.cstr_bytes, if_neg hne, List.take_of_length_le (by omega),
    readRows_textOf, textOf]
  congr 1
  unfold putLine
  by_cases hn : n < ls.length
  · rw [putRow_of_lt _ (by rw [List.length_map]; exact hn), if_pos hn, List.map_set]
  · rw [putRow_of_le _ (by rw [List.length_map]; omega), if_neg hn, padRows, List.length_map,
      List.map_append, List.map_append, List.map_replicate]
    rfl

theorem unlines_delete (ls : List FileLine) (n : Nat) :
    unlines (editLines (readRows (textOf ls)) n []) = textOf (ls.eraseIdx n) := by
  have hempty : cstr [] = [] := rfl
  rw [editLines, if_pos hempty, readRows_textOf, textOf, List.eraseIdx_map]

theorem Holds.update {a : LineStore} {s : Fs} (h : Holds a s) (r : FsResult) (name : FileName)
    (ls : Option (List FileLine)) :
    Holds (a.answer r (a.lines.update name ls))
      (s.answer r (s.files.update name (ls.map textOf))) := by
  refine ⟨fun p => ?_, congrArg (· ++ [r]) h.results⟩
  show (if p = name then _ else s.files p) = (if p = name then ls else a.lines p).map textOf
  split
  · rfl
  · exact h.files p

theorem Holds.keep {a : LineStore} {s : Fs} (h : Holds a s) (r : FsResult) :
    Holds (a.answer r a.lines) (s.answer r s.files) :=
  ⟨h.files, congrArg (· ++ [r]) h.results⟩

theorem Files.update_self (files : Files) (name : FileName) :
    files.update name (files name) = files := by
  funext p
  unfold Files.update
  by_cases hp : p = name
  · rw [if_pos hp, hp]
  · rw [if_neg hp]

theorem Files.update_apply_self (files : Files) (name : FileName) (file : File) :
    files.update name file name = file := if_pos rfl

theorem Files.update_update (files : Files) (name : FileName) (file file' : File) :
    (files.update name file).update name file' = files.update name file' := by
  funext p
  unfold Files.update
  split <;> rfl

/-- An edit that answers with a message and leaves the file. -/
theorem Holds.refuse {a : LineStore} {s : Fs} (h : Holds a s) (filename : FileName) (msg : String) :
    Holds (a.answer (.refused msg) a.lines)
      (s.answer (.refused msg) (s.files.update filename (s.files filename))) := by
  rw [Files.update_self]
  exact h.keep _

theorem Holds.saved {a : LineStore} {s : Fs} (h : Holds a s) (filename : FileName) (writable : Bool)
    {text : Bytes} (hfile : s.files filename = some text) (rows : List Bytes)
    (ls : List FileLine) (hrows : unlines rows = textOf ls) :
    Holds (a.saved filename writable ls)
      (s.answer (.ofBool (CLIos.saved text writable rows).1)
        (s.files.update filename (CLIos.saved text writable rows).2)) := by
  cases writable with
  | true =>
    have hupdate := h.update (.boolean true) filename (some ls)
    rw [Option.map_some, ← hrows] at hupdate
    exact hupdate
  | false =>
    have hrefuse := h.refuse filename "failed to open file for write"
    rw [hfile] at hrefuse
    exact hrefuse

/-! ## One call -/

theorem Holds.append {a a' : LineStore} {s : Fs} (h : Holds a s) {filename : FileName}
    {ls : List FileLine} {opens : Bool}
    (ha : a.step (.append filename ls opens) = some a') :
    ∃ s', s.step ((StoreCall.append filename ls opens).call) = some s' ∧ Holds a' s' := by
  obtain rfl := Option.some.inj ha
  refine ⟨_, rfl, ?_⟩
  cases opens with
  | false => exact h.refuse filename _
  | true =>
    have hcstr : cstr (textOf ls) = textOf ls := cstr_of_not_mem (zero_not_mem_textOf ls)
    have htext : (s.files filename).getD [] ++ (cstr (textOf ls)).take (cstr (textOf ls)).length =
        textOf ((a.lines filename).getD [] ++ ls) := by
      rw [List.take_length, hcstr, textOf_append, h.files]
      cases a.lines filename <;> rfl
    have hpos : decide (0 < (cstr (textOf ls)).length) = !ls.isEmpty := by
      rw [hcstr, length_textOf]
      cases ls with
      | nil => rfl
      | cons l ls =>
        exact decide_eq_true (Nat.succ_pos _)
    have hupdate := h.update (.boolean !ls.isEmpty) filename
      (some ((a.lines filename).getD [] ++ ls))
    rw [Option.map_some, ← htext] at hupdate
    simp only [if_true, FsResult.ofBool, hpos]
    exact hupdate

theorem Holds.read {a a' : LineStore} {s : Fs} (h : Holds a s) {filename : FileName}
    (ha : a.step (.read filename) = some a') :
    ∃ s', s.step (.read filename) = some s' ∧ Holds a' s' := by
  simp only [LineStore.step] at ha
  simp only [Fs.step, h.files filename]
  cases hls : a.lines filename with
  | none =>
    rw [hls] at ha
    obtain rfl := Option.some.inj ha
    exact ⟨_, rfl, h.keep _⟩
  | some ls =>
    simp only [hls] at ha
    split at ha
    · next hle =>
      obtain rfl := Option.some.inj ha
      rw [Option.map_some, lFsRead_eq, numbered_eq ls hle]
      exact ⟨_, rfl, h.keep _⟩
    · cases ha

/-- An edit whose way through the code is known. -/
theorem Holds.edit {a' : LineStore} {s : Fs} {filename : FileName} {n : Nat} {content : Bytes}
    {writable : Bool} {stack : CArray Bytes CHAR_BUFFER_SIZE} {r : Except String Bool × File}
    (hr : lFsEdit stack (s.files filename) n content writable = some r)
    (h : Holds a' (s.answer (.ofBool r.1) (s.files.update filename r.2))) :
    ∃ s', s.step (.edit filename n content writable stack) = some s' ∧ Holds a' s' := by
  refine ⟨_, ?_, h⟩
  simp only [Fs.step, hr]
  rfl

theorem mod_of_le {n : Nat} (h : n ≤ 255) : ((n : Int) % 256).toNat = n := by omega

/-- The two answers that an edit gives before it looks at the lines. -/
theorem Holds.edit_refused {a : LineStore} {s : Fs} (h : Holds a s) {filename : FileName} {n : Nat}
    (content : Bytes) (writable : Bool) (stack : CArray Bytes CHAR_BUFFER_SIZE) (hn : n ≤ 255)
    {msg : String} (hmsg : (n = 0 ∨ 64 < n) ∧ msg = "index out of range" ∨
      ¬ (n = 0 ∨ 64 < n) ∧ a.lines filename = none ∧ msg = "failed to open file for read") :
    ∃ s', s.step (.edit filename n content writable stack) = some s' ∧
      Holds (a.answer (.refused msg) a.lines) s' := by
  refine Holds.edit (r := (.error msg, s.files filename)) ?_ (h.refuse filename msg)
  have hmod := mod_of_le hn
  unfold lFsEdit
  rw [hmod]
  rcases hmsg with ⟨hrange, rfl⟩ | ⟨hrange, hnone, rfl⟩
  · exact if_pos hrange
  · rw [h.files, hnone]
    exact if_neg hrange

theorem Holds.replace {a a' : LineStore} {s : Fs} (h : Holds a s) {filename : FileName} {n : Nat}
    {line : FileLine} (hne : line.bytes ≠ []) {writable : Bool}
    {stack : CArray Bytes CHAR_BUFFER_SIZE}
    (ha : a.step (.replace filename n line hne writable stack) = some a') :
    ∃ s', s.step (.edit filename n line.bytes writable stack) = some s' ∧ Holds a' s' := by
  simp only [LineStore.step] at ha
  split at ha
  · next hrange =>
    obtain rfl := Option.some.inj ha
    exact h.edit_refused _ writable stack (by omega) (Or.inl ⟨by omega, rfl⟩)
  split at ha
  · cases ha
  have hin : 0 < n ∧ n < 64 := by omega
  have hmod := mod_of_le (show n ≤ 255 by omega)
  cases hls : a.lines filename with
  | none =>
    rw [hls] at ha
    obtain rfl := Option.some.inj ha
    exact h.edit_refused _ writable stack (by omega) (Or.inr ⟨by omega, hls, rfl⟩)
  | some ls =>
    simp only [hls] at ha
    split at ha
    · next hle =>
      obtain rfl := Option.some.inj ha
      have hfile : s.files filename = some (textOf ls) := by rw [h.files, hls]; rfl
      have hlen := length_readRows_textOf ls
      have hdone : Edited (textOf ls) n line.bytes writable _ :=
        .done (by rw [hmod]; exact hin) (by rw [hlen]; exact hle)
          fun hc => absurd hc (by rw [line.cstr_bytes]; exact hne)
      have hedit := (lFsEdit_spec stack (textOf ls) n line.bytes writable).unique hdone
      rw [hmod] at hedit
      exact Holds.edit (hfile ▸ hedit)
        (h.saved filename writable hfile _ _ (unlines_replace ls n line hne))
    · cases ha

theorem Holds.delete {a a' : LineStore} {s : Fs} (h : Holds a s) {filename : FileName} {n : Nat}
    {writable : Bool} {stack : CArray Bytes CHAR_BUFFER_SIZE}
    (ha : a.step (.delete filename n writable stack) = some a') :
    ∃ s', s.step (.edit filename n [] writable stack) = some s' ∧ Holds a' s' := by
  simp only [LineStore.step] at ha
  split at ha
  · next hrange =>
    obtain rfl := Option.some.inj ha
    exact h.edit_refused _ writable stack (by omega) (Or.inl ⟨by omega, rfl⟩)
  split at ha
  · cases ha
  have hin : 0 < n ∧ n ≤ 64 := by omega
  have hmod := mod_of_le (show n ≤ 255 by omega)
  cases hls : a.lines filename with
  | none =>
    rw [hls] at ha
    obtain rfl := Option.some.inj ha
    exact h.edit_refused _ writable stack (by omega) (Or.inr ⟨by omega, hls, rfl⟩)
  | some ls =>
    simp only [hls] at ha
    split at ha
    · cases ha
    have hfile : s.files filename = some (textOf ls) := by rw [h.files, hls]; rfl
    have hlen := length_readRows_textOf ls
    have hspec := lFsEdit_spec stack (textOf ls) n [] writable
    split at ha
    · next hlt =>
      obtain rfl := Option.some.inj ha
      have hedit := hspec.unique (.done (by rw [hmod]; omega) (by omega)
        fun _ => by rw [hmod, hlen]; exact hlt)
      rw [hmod] at hedit
      exact Holds.edit (hfile ▸ hedit)
        (h.saved filename writable hfile _ _ (unlines_delete ls n))
    · next hge =>
      obtain rfl := Option.some.inj ha
      have hedit := hspec.unique (.nothing (by rw [hmod]; exact hin) (by omega) rfl
        (by rw [hmod, hlen]; omega))
      have hrefuse := h.refuse filename "index out of range for delete"
      rw [hfile] at hrefuse
      have hcall : lFsEdit stack (s.files filename) n [] writable =
          some (.error "index out of range for delete", some (textOf ls)) := by
        rw [hfile]
        exact hedit
      exact Holds.edit hcall hrefuse

theorem Holds.remove {a a' : LineStore} {s : Fs} (h : Holds a s) {filename : FileName} {fails : Bool}
    (ha : a.step (.remove filename fails) = some a') :
    ∃ s', s.step (.remove filename fails) = some s' ∧ Holds a' s' := by
  obtain rfl := Option.some.inj ha
  refine ⟨_, rfl, ?_⟩
  simp only [h.files filename]
  cases a.lines filename with
  | none => exact h.keep _
  | some ls =>
    cases fails with
    | true => exact h.keep _
    | false => exact h.update (.boolean true) filename none

theorem Holds.rename {a a' : LineStore} {s : Fs} (h : Holds a s) {oldname newname : FileName}
    {fails : Bool} (ha : a.step (.rename oldname newname fails) = some a') :
    ∃ s', s.step (.rename oldname newname fails) = some s' ∧ Holds a' s' := by
  obtain rfl := Option.some.inj ha
  refine ⟨_, rfl, ?_⟩
  simp only [h.files oldname]
  cases a.lines oldname with
  | none => exact h.keep _
  | some ls =>
    cases fails with
    | true => exact h.keep _
    | false =>
      -- the old name first, and then the new one: they may be the same
      have hold : ∀ p,
          s.files.update oldname none p = (a.lines.update oldname none p).map textOf := by
        intro p
        unfold Files.update Lines.update
        split
        · rfl
        · exact h.files p
      refine ⟨fun p => ?_, congrArg (· ++ [FsResult.boolean true]) h.results⟩
      show (if p = newname then _ else _) = (if p = newname then _ else _ : Option _).map textOf
      split
      · rfl
      · exact hold p

theorem Holds.size {a a' : LineStore} {s : Fs} (h : Holds a s) {filename : FileName} {fails : Bool}
    (ha : a.step (.size filename fails) = some a') :
    ∃ s', s.step (.size filename fails) = some s' ∧ Holds a' s' := by
  obtain rfl := Option.some.inj ha
  refine ⟨_, rfl, ?_⟩
  simp only [lFsSize, h.files filename]
  cases a.lines filename with
  | none => exact h.keep _
  | some ls =>
    cases fails with
    | true => exact h.keep _
    | false =>
      simp only [Option.map_some, length_textOf]
      exact h.keep _

theorem Holds.step {a a' : LineStore} {s : Fs} {c : StoreCall} (h : Holds a s)
    (ha : a.step c = some a') : ∃ s', s.step c.call = some s' ∧ Holds a' s' := by
  cases c with
  | append filename ls opens => exact h.append ha
  | read filename => exact h.read ha
  | replace filename n line hne writable stack => exact h.replace hne ha
  | delete filename n writable stack => exact h.delete ha
  | remove filename fails => exact h.remove ha
  | rename oldname newname fails => exact h.rename ha
  | size filename fails => exact h.size ha

theorem Holds.run {a₀ a : LineStore} {s₀ : Fs} (h : Holds a₀ s₀) (cs : List StoreCall)
    (ha : (lineStore.restart a₀).run cs = some a) :
    ∃ s, (fs.restart s₀).run (cs.map StoreCall.call) = some s ∧ Holds a s := by
  have hstep : ∀ a s c a', Holds a s → a.step c = some a' →
      ∃ s', [c.call].foldlM Fs.step s = some s' ∧ Holds a' s' := by
    intro a s c a' hholds ha
    obtain ⟨s', hs', hholds'⟩ := hholds.step ha
    exact ⟨s', by rw [List.foldlM_cons, hs']; rfl, hholds'⟩
  rw [List.map_eq_flatMap]
  exact Machine.run_of_relation (N := fs.restart s₀) (fun c => [StoreCall.call c]) h hstep cs a ha

/-- **The file module is a store of lines.**  A program that keeps to lines that
fit, and to the numbers of them that the module can count, gets from the code the
answers of the store, and the files are the texts of its lines. -/
theorem fs_refines_lines (cs : List StoreCall) (a : LineStore) (h : lineStore.run cs = some a) :
    ∃ s, fs.run (cs.map StoreCall.call) = some s ∧ s.results = a.results ∧
      ∀ p, s.files p = (a.lines p).map textOf := by
  have hstart : Holds LineStore.start Fs.start := ⟨fun _ => rfl, rfl⟩
  obtain ⟨s, hs, hholds⟩ := hstart.run cs h
  exact ⟨s, hs, hholds.results, hholds.files⟩

def FileLine.letter (c : UInt8) (hn : c ≠ newline := by decide) (h0 : c ≠ 0 := by decide) :
    FileLine :=
  ⟨[c], by simpa using hn.symm, by simpa using h0.symm, Nat.le_add_left 1 61⟩

def FileName.a : FileName := ⟨"/home/a", by decide⟩

/-- Two lines written, a third put far behind them, the first deleted, all read. -/
def fourCalls : List StoreCall :=
  let stack := CArray.fill CHAR_BUFFER_SIZE []
  [.append .a [.letter 97, .letter 98] true,
    .replace .a 3 (.letter 99) (List.cons_ne_nil _ _) true stack,
    .delete .a 1 true stack, .read .a]

theorem fs_refines_lines_four : ∃ a s, lineStore.run fourCalls = some a ∧
    fs.run (fourCalls.map StoreCall.call) = some s ∧ s.results = a.results ∧
      s.files .a = some [97, 10, 10, 99, 10] := by
  obtain ⟨s, hs, hr, hf⟩ := fs_refines_lines fourCalls _ rfl
  exact ⟨_, s, rfl, hs, hr, (hf .a).trans rfl⟩

end CLIos
