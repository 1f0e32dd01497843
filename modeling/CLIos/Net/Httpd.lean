import CLIos.Lib.LuaApi
import CLIos.Lib.Machine

/-!
# The HTTP server: registration and dispatch

components/NET/net_httpd.c.  `F_ON` keeps the Lua function under a registry
reference, calls `store_lua_callback` and registers the URI with the server;
`lua_httpd_generic_handler` looks for a function in the registry table
`HTTPD_CALLBACKS` under `path|METHOD`.  What `httpd_register_uri_handler`
answers is part of the call (`OnCall`), as is the free key that `luaL_ref` picks.

What this is for: the function called is the one of the last registration that
succeeded for the server, the path and the method (`lastOn`).
-/

namespace CLIos

open LuaApi Runs

/-- `LUA_HTTPD_CB_TABLE` -/
def httpdCallbacks : List Char := "HTTPD_CALLBACKS".toList

/-- What `snprintf` leaves in a buffer of `size` bytes. -/
def snprintf (size : Nat) (s : List Char) : List Char := s.take (size - 1)

/-- A call `srv:on(path, method, f)`. -/
structure OnCall where
  /-- the `lua_httpd_t` of `srv` -/
  server : Nat
  path : List Char
  method : Option (List Char)
  f : Nat
  ref : Nat
  /-- `httpd_register_uri_handler` returns `ESP_OK` -/
  registered : Bool
deriving DecidableEq

/-- `path` as the server and `snprintf` read it, up to a NUL -/
def OnCall.uri (c : OnCall) : List Char := cString c.path

/-- `luaL_optstring(L, 3, "GET")`, read the same way -/
def OnCall.methodName (c : OnCall) : List Char := cString (c.method.getD "GET".toList)

/-- The table of callbacks on top of the stack; it is made if it is not there. -/
def pushCallbacks (L : LuaState) : Option LuaState :=
  (L.getfield registryIndex httpdCallbacks).bind fun L =>
  if L.isnil (-1) then
    (L.pop 1).bind fun L =>
    (L.newtable.pushvalue (-1)).bind fun L =>
    L.setfield registryIndex httpdCallbacks
  else some L

/-- `store_lua_callback`.  The key `path|method` is formatted there too, into
128 bytes, and is not used. -/
def storeLuaCallback (L : LuaState) (funcRef : Nat) : Option LuaState :=
  (pushCallbacks L).bind fun L =>
  (L.rawseti (-1) funcRef).bind fun L =>
  L.pop 1

/-- `F_ON`: the function's stack holds the four arguments, bottom first; the
boolean on top is its result. -/
def fOn (L : LuaState) (c : OnCall) : Option LuaState :=
  let arguments := [.function c.f, (c.method.map Value.string).getD .nil, .string c.path,
    .userdata c.server]
  (LuaState.pushvalue { L with stack := arguments } 4).bind fun L =>
  (L.ref registryIndex c.ref).bind fun L =>
  (storeLuaCallback L c.ref).bind fun L =>
  some (L.push (.boolean c.registered))

/-- What the handler does with a request: it answers 404, or calls a function. -/
inductive Dispatch where
  | notFound
  | call (f : Value)
deriving DecidableEq

/-- A request by POST or by GET, as far as the call of the function; `uri` is the
text of `req->uri`. -/
def luaHttpdGenericHandler (L : LuaState) (uri : List Char) (post : Bool) :
    Option (LuaState × Dispatch) :=
  let key := snprintf 1024 (uri ++ "|".toList ++ (if post then "POST" else "GET").toList)
  (L.getfield registryIndex httpdCallbacks).bind fun L =>
  if L.isnil (-1) then (L.pop 1).map fun L => (L, .notFound)
  else
    (L.getfield (-1) key).bind fun L =>
    if L.isfunction (-1) then
      (L.slot (-1)).map fun f => (L.push (.string uri), .call f)
    else (L.pop 2).map fun L => (L, .notFound)

/-- The calls of `srv:on`, on any servers, one after the other. -/
def httpd : Machine LuaState OnCall where
  init := LuaState.new
  step := fOn

/-! ## What routing is for -/

/-- The call is for this server, path and method, the method without case. -/
def OnCall.matches (c : OnCall) (server : Nat) (path : List Char) (post : Bool) : Bool :=
  c.server = server && c.uri = path &&
    c.methodName.map Char.toUpper = (if post then "POST" else "GET").toList

/-- The last call for the request that returned true. -/
def lastOn (calls : List OnCall) (server : Nat) (path : List Char) (post : Bool) :
    Option OnCall :=
  calls.reverse.find? fun c => c.registered && c.matches server path post

/-- What a request is answered with after the calls. -/
def dispatchAfter (calls : List OnCall) (path : List Char) (post : Bool) : Option Dispatch :=
  ((httpd.run calls).bind fun L => luaHttpdGenericHandler L path post).map Prod.snd

/-- The request goes to the function of the last call that returned true, or is
answered with 404; and no call that returned false changed the answer to any. -/
structure Routed (calls : List OnCall) (server : Nat) (path : List Char) (post : Bool) : Prop where
  last : dispatchAfter calls path post =
    some (match lastOn calls server path post with
      | some c => .call (.function c.f)
      | none => .notFound)
  failed : ∀ pre c, pre ++ [c] <+: calls → c.registered = false →
    ∀ uri post, dispatchAfter (pre ++ [c]) uri post = dispatchAfter pre uri post

/-! ## The table has no names -/

/-- The table of callbacks, if it exists, has nothing under a string. -/
def NoNames (L : LuaState) : Prop :=
  L.heap 0 (.field httpdCallbacks) = .nil ∨
    ∃ c, 0 < c ∧ L.heap 0 (.field httpdCallbacks) = .table c ∧ ∀ name, L.heap c (.field name) = .nil

theorem pushCallbacks_spec (L : LuaState) (h : NoNames L) :
    ∃ c L', pushCallbacks L = some L' ∧ L'.stack = .table c :: L.stack ∧ 0 < c ∧
      L'.heap 0 (.field httpdCallbacks) = .table c ∧ ∀ name, L'.heap c (.field name) = .nil := by
  obtain ⟨L₁, h₁, hs₁, hh₁, hm₁⟩ := L.getfield_spec httpdCallbacks L.slot_registry
  unfold pushCallbacks
  rw [h₁, Option.bind_some, LuaState.isnil, L₁.slot_top _ _ hs₁]
  rcases h with hnil | ⟨c, hc, htable, hnames⟩
  · rw [hnil] at hs₁ ⊢
    obtain ⟨L₂, h₂, hs₂, hh₂, hm₂⟩ := L₁.pop_spec [.nil] hs₁
    have hs₃ : L₂.newtable.stack = .table (L₂.made + 1) :: L₂.stack := rfl
    obtain ⟨L₄, h₄, hs₄, hh₄, -⟩ := L₂.newtable.pushvalue_spec (L₂.newtable.slot_top _ _ hs₃)
    obtain ⟨L₅, h₅, hs₅, -, hh₅⟩ := L₄.rawset_spec (.field httpdCallbacks) L₄.slot_registry hs₄
    have h₂ : L₁.pop 1 = some L₂ := h₂
    refine ⟨L₂.made + 1, L₅, ?_, ?_, Nat.succ_pos _, ?_, fun name => ?_⟩
    · rw [if_pos (by simp), h₂, Option.bind_some, h₄, Option.bind_some]
      exact h₅
    · rw [hs₅, hs₃, hs₂]
    · rw [hh₅, if_pos ⟨rfl, rfl⟩]
    · rw [hh₅, if_neg (by simp), hh₄]
      exact if_pos rfl
  · rw [htable] at hs₁ ⊢
    refine ⟨c, L₁, if_neg (by simp), hs₁, hc, ?_, fun name => ?_⟩
    · rw [hh₁, htable]
    · rw [hh₁, hnames]

/-- `lua_rawseti` finds the table itself on top: it is stored in itself and
popped, and the `lua_pop` after it pops what was below. -/
theorem storeLuaCallback_spec (L : LuaState) (r : Nat) {v : Value} {rest : List Value}
    (hs : L.stack = v :: rest) (h : NoNames L) :
    ∃ L', storeLuaCallback L r = some L' ∧ NoNames L' ∧ L'.stack = rest := by
  obtain ⟨c, L₁, h₁, hs₁, hc, htable, hnames⟩ := pushCallbacks_spec L h
  obtain ⟨L₂, h₂, hs₂, -, hh₂⟩ := L₁.rawset_spec (.index r) (L₁.slot_top _ _ hs₁) hs₁
  obtain ⟨L₃, h₃, hs₃, hh₃, -⟩ := L₂.pop_spec [v]
    (show L₂.stack = [v] ++ rest by rw [hs₂, hs]; rfl)
  refine ⟨L₃, ?_, Or.inr ⟨c, hc, ?_, fun name => ?_⟩, hs₃⟩
  · unfold storeLuaCallback LuaState.rawseti
    rw [h₁, Option.bind_some, h₂, Option.bind_some]
    exact h₃
  · rw [hh₃, hh₂, if_neg (by simp), htable]
  · rw [hh₃, hh₂, if_neg (by simp), hnames]

/-- `F_ON` keeps the function under its reference only. -/
theorem fOn_spec (L : LuaState) (c : OnCall) (h : NoNames L) :
    ∃ L', fOn L c = some L' ∧ NoNames L' := by
  let method : Value := (c.method.map Value.string).getD .nil
  let L₁ : LuaState := { L with
    stack := [.function c.f, method, .string c.path, .userdata c.server] }
  have hslot : L₁.slot 4 = some (.function c.f) := L₁.slot_bottom 3
  obtain ⟨L₂, h₂, hs₂, hh₂, -⟩ := L₁.pushvalue_spec hslot
  obtain ⟨L₃, h₃, hs₃, -, hh₃⟩ := L₂.rawset_spec (.index c.ref) L₂.slot_registry hs₂
  have hnames : NoNames L₃ := by
    have hfields : ∀ a name, L₃.heap a (.field name) = L.heap a (.field name) := by
      intro a name
      rw [hh₃, if_neg (by simp), hh₂]
    unfold NoNames
    simp only [hfields]
    exact h
  obtain ⟨L₄, h₄, hnames₄, -⟩ := storeLuaCallback_spec L₃ c.ref hs₃ hnames
  refine ⟨L₄.push (.boolean c.registered), ?_, hnames₄⟩
  unfold fOn LuaState.ref
  show (L₁.pushvalue 4).bind _ = _
  rw [h₂, Option.bind_some, h₃, Option.bind_some, h₄, Option.bind_some]

/-- So every request is answered with 404, and the stack is left as it was. -/
theorem handler_spec (L : LuaState) (uri : List Char) (post : Bool) (h : NoNames L) :
    ∃ L', luaHttpdGenericHandler L uri post = some (L', .notFound) ∧ L'.stack = L.stack := by
  obtain ⟨L₁, h₁, hs₁, hh₁, -⟩ := L.getfield_spec httpdCallbacks L.slot_registry
  unfold luaHttpdGenericHandler
  simp only [h₁, Option.bind_some, LuaState.isnil, L₁.slot_top _ _ hs₁]
  rcases h with hnil | ⟨c, hc, htable, hnames⟩
  · obtain ⟨L₂, h₂, hs₂, -⟩ := L₁.pop_spec [_] hs₁
    have h₂ : L₁.pop 1 = some L₂ := h₂
    refine ⟨L₂, ?_, hs₂⟩
    rw [hnil, if_pos (by simp), h₂, Option.map_some]
  · rw [htable] at hs₁ ⊢
    rw [if_neg (by simp)]
    obtain ⟨L₂, h₂, hs₂, -⟩ := L₁.getfield_spec (snprintf 1024
      (uri ++ "|".toList ++ (if post then "POST" else "GET").toList)) (L₁.slot_top _ _ hs₁)
    rw [hh₁, hnames] at hs₂
    have hslot := L₂.slot_top _ _ hs₂
    obtain ⟨L₃, h₃, hs₃, -⟩ := L₂.pop_spec [.nil, .table c]
      (show L₂.stack = [.nil, .table c] ++ L.stack by rw [hs₂, hs₁]; rfl)
    have h₃ : L₂.pop 2 = some L₃ := h₃
    refine ⟨L₃, ?_, hs₃⟩
    rw [h₂, Option.bind_some, if_neg (by rw [LuaState.isfunction, hslot]; simp), h₃, Option.map_some]

theorem httpd_run (calls : List OnCall) : ∃ L, httpd.run calls = some L ∧ NoNames L := by
  apply Machine.total_of_step
  · exact Or.inl rfl
  · intro _ L c hnames
    exact fOn_spec L c hnames

theorem dispatchAfter_eq (calls : List OnCall) (uri : List Char) (post : Bool) :
    dispatchAfter calls uri post = some .notFound := by
  obtain ⟨L, hL, hnames⟩ := httpd_run calls
  obtain ⟨L', hL', -⟩ := handler_spec L uri post hnames
  unfold dispatchAfter
  rw [hL, Option.bind_some, hL', Option.map_some]

/-- **Routing.**  A request is routed as its registrations ask for exactly when
none of them succeeded: it is answered with 404 in any case. -/
theorem httpd_routed_iff (calls : List OnCall) (server : Nat) (path : List Char) (post : Bool) :
    Routed calls server path post ↔
      ∀ c ∈ calls, c.matches server path post = true → c.registered = false := by
  have hnone : lastOn calls server path post = none ↔
      ∀ c ∈ calls, c.matches server path post = true → c.registered = false := by
    unfold lastOn
    rw [List.find?_eq_none]
    constructor
    · intro h c hc hm
      have := h c (List.mem_reverse.mpr hc)
      simpa [hm] using this
    · intro h c hc
      by_cases hm : c.matches server path post = true
      · simp [h c (List.mem_reverse.mp hc) hm]
      · simp [hm]
  rw [← hnone]
  constructor
  · intro h
    have hlast := h.last
    rw [dispatchAfter_eq] at hlast
    cases hl : lastOn calls server path post with
    | none => rfl
    | some c =>
      rw [hl] at hlast
      cases hlast
  · intro h
    refine ⟨?_, fun pre c _ _ uri post' => ?_⟩
    · rw [dispatchAfter_eq, h]
    · rw [dispatchAfter_eq, dispatchAfter_eq]

/-- One registration that succeeds, and its request. -/
theorem httpd_not_routed :
    ¬ ∀ calls server path post, Routed calls server path post := by
  intro h
  have hlast := (h [⟨0, "/".toList, none, 1, 5, true⟩] 0 "/".toList false).last
  exact absurd hlast (by decide +kernel)

end CLIos
