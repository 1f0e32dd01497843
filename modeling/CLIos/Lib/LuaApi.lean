import Mathlib.Data.List.TakeWhile
import Mathlib.Tactic.Common

/-!
# The stack of the Lua C API

The part of the Lua C API that works on tables: values, the stack of a C
function, and the heap of tables, with the registry at address 0.  Tables have
no metatables.  A call that reads outside the stack, or indexes what is not a
table, has no defined effect and is `none`.

`rawseti` and `setfield` take the value from the top of the stack and pop it;
the table is looked up first, so the two can be the same slot.
-/

namespace LuaApi

inductive Value where
  | nil
  | boolean (b : Bool)
  | integer (i : Int)
  /-- by its bits -/
  | float (bits : UInt64)
  | string (s : List Char)
  | function (id : Nat)
  | table (addr : Nat)
  | userdata (id : Nat)
deriving DecidableEq

inductive Key where
  | field (s : List Char)
  | index (n : Nat)
deriving DecidableEq

/-- `LUA_REGISTRYINDEX` -/
def registryIndex : Int := -1001000

structure LuaState where
  /-- the top is the head -/
  stack : List Value
  heap : Nat → Key → Value
  /-- the tables made so far have the addresses 1 to `made` -/
  made : Nat

/-! ## Integers

What C code makes of a `lua_Integer` that it stores in a smaller type. -/

/-- `int` -/
def toInt (v : Int) : Int := v.bmod 4294967296

theorem toInt_eq (v : Int) : toInt v =
    if v % 4294967296 < 2147483648 then v % 4294967296 else v % 4294967296 - 4294967296 :=
  Int.bmod_def v 4294967296

/-- An `int` keeps what it can hold. -/
theorem toInt_eq_self_iff (v : Int) : toInt v = v ↔ -2147483648 ≤ v ∧ v < 2147483648 := by
  rw [toInt_eq]
  split <;> omega

/-- A sum of `int`s; without a defined effect if it overflows. -/
def checkedInt (v : Int) : Option Int := if toInt v = v then some v else none

theorem checkedInt_eq {v : Int} (hle : -2147483648 ≤ v) (hlt : v < 2147483648) :
    checkedInt v = some v := if_pos ((toInt_eq_self_iff v).mpr ⟨hle, hlt⟩)

/-- `uint32_t`, also `UBaseType_t` -/
def toUint32 (v : Int) : Nat := (v % 4294967296).toNat

/-- `uint8_t` -/
def toUint8 (v : Int) : Nat := (v % 256).toNat

/-! ## Strings

`luaL_checkstring` makes a number a string, in the slot where it stands. -/

structure NumberTexts where
  /-- `tostring` of a float -/
  float : UInt64 → List Char
  /-- there is memory for the string of a number -/
  memory : Value → Bool

namespace NumberTexts

/-- A string or a number as a string. -/
def text (N : NumberTexts) : Value → List Char
  | .string s => s
  | .integer i => (toString i).toList
  | .float b => N.float b
  | _ => []

/-- `luaL_checkstring`, which raises an error for other values. -/
def checkString (N : NumberTexts) : Value → Option (List Char)
  | .string s => some s
  | .integer i => if N.memory (.integer i) then some (N.text (.integer i)) else none
  | .float b => if N.memory (.float b) then some (N.text (.float b)) else none
  | _ => none

/-- `luaL_optstring` -/
def optString (N : NumberTexts) (v : Value) (default : List Char) : Option (List Char) :=
  if v = .nil then some default else N.checkString v

theorem text_of_checkString (N : NumberTexts) {v : Value} {s : List Char}
    (h : N.checkString v = some s) : N.text v = s := by
  unfold checkString at h
  split at h
  · exact Option.some.inj h
  · split at h <;> cases h
    rfl
  · split at h <;> cases h
    rfl
  · cases h

end NumberTexts

/-- What C reads of a string: up to the first NUL. -/
def cString (s : List Char) : List Char := s.takeWhile (· ≠ '\x00')

theorem cString_eq_self_iff (s : List Char) : cString s = s ↔ '\x00' ∉ s := by
  unfold cString
  rw [List.takeWhile_eq_self_iff]
  constructor
  · intro h hmem
    simpa using h _ hmem
  · intro h c hc
    have hne : c ≠ '\x00' := fun heq => h (heq ▸ hc)
    exact decide_eq_true hne

theorem nul_notMem_cString (s : List Char) : '\x00' ∉ cString s := by
  intro h
  have := List.mem_takeWhile_imp h
  simp at this

/-- What `luaL_checkinteger` makes of floats and strings. -/
structure Integers where
  float : UInt64 → Option Int
  string : List Char → Option Int

/-- `luaL_checkinteger`, which raises an error for other values. -/
def Integers.checkInteger (N : Integers) : Value → Option Int
  | .integer i => some i
  | .float b => N.float b
  | .string s => N.string s
  | _ => none

namespace LuaState

/-- A new state: nothing in the registry. -/
def new : LuaState := ⟨[], fun _ _ => .nil, 0⟩

/-- The value at an index: the registry, from the bottom, or from the top. -/
def slot (L : LuaState) (idx : Int) : Option Value :=
  if idx = registryIndex then some (.table 0)
  else if 0 < idx then L.stack.reverse[idx.toNat - 1]?
  else L.stack[(-idx).toNat - 1]?

def push (L : LuaState) (v : Value) : LuaState := { L with stack := v :: L.stack }

/-- `lua_pop` -/
def pop (L : LuaState) (n : Nat) : Option LuaState :=
  if n ≤ L.stack.length then some { L with stack := L.stack.drop n } else none

def pushvalue (L : LuaState) (idx : Int) : Option LuaState := (L.slot idx).map L.push

def newtable (L : LuaState) : LuaState where
  stack := .table (L.made + 1) :: L.stack
  heap := fun a k => if a = L.made + 1 then .nil else L.heap a k
  made := L.made + 1

def isnil (L : LuaState) (idx : Int) : Bool := L.slot idx = some .nil

def isfunction (L : LuaState) (idx : Int) : Bool :=
  match L.slot idx with
  | some (.function _) => true
  | _ => false

/-- `lua_getfield` -/
def getfield (L : LuaState) (idx : Int) (name : List Char) : Option LuaState :=
  match L.slot idx with
  | some (.table a) => some (L.push (L.heap a (.field name)))
  | _ => none

/-- `t[k] = v` for the table at `idx` and the value on top, which is popped. -/
def rawset (L : LuaState) (idx : Int) (k : Key) : Option LuaState :=
  match L.slot idx, L.stack with
  | some (.table a), v :: rest => some
    { L with stack := rest, heap := fun b k' => if b = a ∧ k' = k then v else L.heap b k' }
  | _, _ => none

/-- `lua_setfield` -/
def setfield (L : LuaState) (idx : Int) (name : List Char) : Option LuaState :=
  L.rawset idx (.field name)

/-- `lua_rawseti` -/
def rawseti (L : LuaState) (idx : Int) (n : Nat) : Option LuaState := L.rawset idx (.index n)

/-- `luaL_ref`; the caller names the free key that it picks. -/
def ref (L : LuaState) (idx : Int) (n : Nat) : Option LuaState := L.rawset idx (.index n)

/-! ## Indices and table writes -/

theorem slot_registry (L : LuaState) : L.slot registryIndex = some (.table 0) := if_pos rfl

theorem slot_top (L : LuaState) (v : Value) (rest : List Value) (h : L.stack = v :: rest) :
    L.slot (-1) = some v := by
  unfold slot
  rw [if_neg (by decide), if_neg (by decide), h]
  rfl

theorem slot_bottom (L : LuaState) (i : Nat) :
    L.slot (i + 1 : Nat) = L.stack.reverse[i]? := by
  unfold slot registryIndex
  rw [if_neg (by omega), if_pos (by omega)]
  congr 1

theorem getfield_spec (L : LuaState) {idx : Int} {a : Nat} (name : List Char)
    (h : L.slot idx = some (.table a)) : ∃ L', L.getfield idx name = some L' ∧
      L'.stack = L.heap a (.field name) :: L.stack ∧ L'.heap = L.heap ∧ L'.made = L.made := by
  refine ⟨L.push (L.heap a (.field name)), ?_, rfl, rfl, rfl⟩
  unfold getfield
  rw [h]

theorem pushvalue_spec (L : LuaState) {idx : Int} {v : Value} (h : L.slot idx = some v) :
    ∃ L', L.pushvalue idx = some L' ∧ L'.stack = v :: L.stack ∧ L'.heap = L.heap ∧
      L'.made = L.made := by
  refine ⟨L.push v, ?_, rfl, rfl, rfl⟩
  unfold pushvalue
  rw [h]
  rfl

theorem rawset_spec (L : LuaState) {idx : Int} {a : Nat} {v : Value} {rest : List Value} (k : Key)
    (h : L.slot idx = some (.table a)) (hs : L.stack = v :: rest) :
    ∃ L', L.rawset idx k = some L' ∧ L'.stack = rest ∧ L'.made = L.made ∧
      ∀ b k', L'.heap b k' = if b = a ∧ k' = k then v else L.heap b k' := by
  refine ⟨{ L with
    stack := rest
    heap := fun b k' => if b = a ∧ k' = k then v else L.heap b k' }, ?_, rfl, rfl, fun _ _ => rfl⟩
  unfold rawset
  rw [h, hs]

theorem pop_spec (L : LuaState) (front : List Value) {rest : List Value}
    (hs : L.stack = front ++ rest) : ∃ L', L.pop front.length = some L' ∧ L'.stack = rest ∧
      L'.heap = L.heap ∧ L'.made = L.made := by
  refine ⟨{ L with stack := rest }, ?_, rfl, rfl, rfl⟩
  unfold pop
  rw [hs, if_pos (by rw [List.length_append]; omega), List.drop_left]

theorem pop_heap (L : LuaState) {L' : LuaState} {n : Nat} (h : L.pop n = some L') :
    L'.heap = L.heap := by
  unfold pop at h
  split at h <;> cases h
  rfl

end LuaState

end LuaApi
