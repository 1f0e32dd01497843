import CLIos.Net.Httpd

/-!
# The HTTP server: the call of the function

`luaHttpdGenericHandler` (Net/Httpd) goes as far as the call; here
`lua_httpd_generic_handler` is followed to its end (components/NET/net_httpd.c),
for any content of the registry: what `lua_getfield` makes of a value that is no
table, and what the `luaL_check` functions accept, are parameters of the model
(`LuaLib`).  The handler is called by the server, so that an error raised
outside `lua_pcall` has nobody to catch it.

Every way out pops what it pushed but for those after the call: each of them
leaves the table of callbacks on the stack.
-/

namespace CLIos

open LuaApi

/-- What Lua makes of values, as far as the handler asks. -/
structure LuaLib where
  /-- `lua_getfield` of a value that is no table; `none` if it raises an error -/
  index : Value → List Char → Option Value
  /-- `lua_tointegerx` -/
  tointeger : Value → Option Int
  /-- `lua_tolstring` -/
  tolstring : Value → Option (List Char)

/-- What the function called does: how it ends, and what it makes of the tables. -/
structure Callback where
  /-- the values it returns, or the error it raises -/
  outcome : Except Value (List Value)
  heap : Nat → Key → Value
  made : Nat

inductive HttpResponse where
  | notFound
  | serverError
  | ok (body : List Char)
deriving DecidableEq

/-- How the handler ends: it returns an `esp_err_t`, having sent responses, or
raises an error. -/
inductive HandlerEnd where
  | returned (sent : List HttpResponse)
  | raised

def httpdKey (uri : List Char) (post : Bool) : List Char :=
  snprintf 1024 (uri ++ "|".toList ++ (if post then "POST" else "GET").toList)

/-- `lua_getfield` on any value. -/
def getfieldAny (lib : LuaLib) (L : LuaState) (idx : Int) (name : List Char) :
    Option LuaState :=
  match L.slot idx with
  | some (.table a) => some (L.push (L.heap a (.field name)))
  | some v => (lib.index v name).map L.push
  | none => none

/-- `lua_call` adjusts the results to `n`. -/
def adjust (n : Nat) (vs : List Value) : List Value := (vs ++ List.replicate n Value.nil).take n

/-- From `lua_pcall(L, 1, 2, 0)` on. -/
def finishRequest (lib : LuaLib) (L : LuaState) (cb : Callback) :
    Option (LuaState × HandlerEnd) :=
  (L.pop 2).bind fun L =>
  let L := { L with heap := cb.heap, made := cb.made }
  match cb.outcome with
  | .error err => ((L.push err).pop 1).map fun L => (L, .returned [.serverError])
  | .ok vs =>
    let L := (adjust 2 vs).foldl LuaState.push L
    match (L.slot (-2)).bind lib.tointeger with
    | none => some (L, .raised)
    | some _ =>
      match (L.slot (-1)).bind lib.tolstring with
      | none => some (L, .raised)
      | some body => (L.pop 2).map fun L => (L, .returned [.ok body])

/-- `lua_httpd_generic_handler`; `uri` is the text of `req->uri`. -/
def handleRequest (lib : LuaLib) (L : LuaState) (uri : List Char) (post : Bool) (cb : Callback) :
    Option (LuaState × HandlerEnd) :=
  (L.getfield registryIndex httpdCallbacks).bind fun L =>
  if L.isnil (-1) then (L.pop 1).map fun L => (L, .returned [.notFound])
  else
    match getfieldAny lib L (-1) (httpdKey uri post) with
    | none => some (L, .raised)
    | some L =>
      if L.isfunction (-1) then finishRequest lib (L.push (.string uri)) cb
      else (L.pop 2).map fun L => (L, .returned [.notFound])

/-! ## The value found -/

/-- The value under a name in the value `v`; `none` if Lua raises an error. -/
def lookupIn (lib : LuaLib) (L : LuaState) (v : Value) (name : List Char) : Option Value :=
  match v with
  | .table a => some (L.heap a (.field name))
  | v => lib.index v name

theorem getfieldAny_top (lib : LuaLib) (L : LuaState) (name : List Char) {v : Value}
    {rest : List Value} (hs : L.stack = v :: rest) :
    getfieldAny lib L (-1) name = (lookupIn lib L v name).map L.push := by
  unfold getfieldAny lookupIn
  rw [L.slot_top v rest hs]
  cases v <;> rfl

/-- What the registry has under `HTTPD_CALLBACKS`. -/
def callbacks (L : LuaState) : Value := L.heap 0 (.field httpdCallbacks)

/-- The handler up to the call, told by the two values it looks up. -/
theorem handleRequest_eq (lib : LuaLib) (L : LuaState) (uri : List Char) (post : Bool)
    (cb : Callback) : handleRequest lib L uri post cb =
      if callbacks L = .nil then some (L, .returned [.notFound])
      else
        match lookupIn lib L (callbacks L) (httpdKey uri post) with
        | none => some (L.push (callbacks L), .raised)
        | some (.function f) => finishRequest lib
            { L with stack := .string uri :: .function f :: callbacks L :: L.stack } cb
        | some _ => some (L, .returned [.notFound]) := by
  have hget : L.getfield registryIndex httpdCallbacks = some (L.push (callbacks L)) := by
    unfold LuaState.getfield
    rw [L.slot_registry]
    rfl
  have htop : (L.push (callbacks L)).slot (-1) = some (callbacks L) :=
    LuaState.slot_top _ _ L.stack rfl
  have hpop : (L.push (callbacks L)).pop 1 = some L := if_pos (by simp [LuaState.push])
  unfold handleRequest
  rw [hget, Option.bind_some, LuaState.isnil, htop, hpop]
  by_cases hnil : callbacks L = .nil
  · rw [if_pos hnil, if_pos (by rw [hnil]; rfl)]
    rfl
  · rw [if_neg hnil, if_neg (by simpa using hnil), getfieldAny_top lib _ _ rfl]
    have hsame : lookupIn lib (L.push (callbacks L)) (callbacks L) (httpdKey uri post) =
        lookupIn lib L (callbacks L) (httpdKey uri post) := rfl
    rw [hsame]
    cases hv : lookupIn lib L (callbacks L) (httpdKey uri post) with
    | none => rfl
    | some v =>
      have hslot : ((L.push (callbacks L)).push v).slot (-1) = some v :=
        LuaState.slot_top _ _ _ rfl
      have hpop₂ : ((L.push (callbacks L)).push v).pop 2 = some L := if_pos (by simp [LuaState.push])
      simp only [Option.map_some, LuaState.isfunction, hslot, hpop₂]
      cases v <;> rfl

/-- Where the dispatch alone is defined, the handler goes on from it. -/
theorem handleRequest_dispatch (lib : LuaLib) (L L' : LuaState) (uri : List Char) (post : Bool)
    (cb : Callback) (d : Dispatch) (h : luaHttpdGenericHandler L uri post = some (L', d)) :
    handleRequest lib L uri post cb =
      match d with
      | .notFound => some (L', .returned [.notFound])
      | .call _ => finishRequest lib L' cb := by
  unfold luaHttpdGenericHandler at h
  obtain ⟨L₁, h₁, h⟩ := Option.bind_eq_some_iff.mp h
  unfold handleRequest
  rw [h₁, Option.bind_some]
  split at h
  · next hnil =>
    rw [if_pos hnil]
    obtain ⟨L₂, h₂, h⟩ := Option.map_eq_some_iff.mp h
    obtain ⟨rfl, rfl⟩ := Prod.mk.inj h
    rw [h₂, Option.map_some]
  · next hnil =>
    rw [if_neg hnil]
    obtain ⟨L₂, h₂, h⟩ := Option.bind_eq_some_iff.mp h
    have hany : getfieldAny lib L₁ (-1) (httpdKey uri post) = some L₂ := by
      unfold LuaState.getfield at h₂
      unfold getfieldAny
      split at h₂
      · next a hslot =>
        rw [hslot]
        exact h₂
      · cases h₂
    simp only [hany]
    split at h
    · next hf =>
      rw [if_pos hf]
      obtain ⟨f, hslot, h⟩ := Option.map_eq_some_iff.mp h
      obtain ⟨rfl, rfl⟩ := Prod.mk.inj h
      rfl
    · next hf =>
      rw [if_neg hf]
      obtain ⟨L₃, h₃, h⟩ := Option.map_eq_some_iff.mp h
      obtain ⟨rfl, rfl⟩ := Prod.mk.inj h
      rw [h₃, Option.map_some]

/-! ## After the call -/

theorem stack_foldl_push (L : LuaState) (vs : List Value) :
    (vs.foldl LuaState.push L).stack = vs.reverse ++ L.stack := by
  induction vs generalizing L with
  | nil => rfl
  | cons v vs ih =>
    rw [List.foldl_cons, ih, List.reverse_cons, List.append_assoc]
    rfl

theorem length_adjust (n : Nat) (vs : List Value) : (adjust n vs).length = n := by
  unfold adjust
  rw [List.length_take, List.length_append, List.length_replicate]
  omega

theorem stack_of_pop {L L' : LuaState} {n : Nat} (h : L.pop n = some L') :
    L'.stack = L.stack.drop n := by
  unfold LuaState.pop at h
  split at h
  · obtain rfl := Option.some.inj h
    rfl
  · cases h

/-- However the call ends, what is under the function and its argument stays. -/
theorem finishRequest_stack {lib : LuaLib} {L L' : LuaState} {cb : Callback}
    {sent : List HttpResponse} {v w : Value} {rest : List Value} (hs : L.stack = v :: w :: rest)
    (h : finishRequest lib L cb = some (L', .returned sent)) : L'.stack = rest := by
  unfold finishRequest at h
  obtain ⟨L₁, h₁, h⟩ := Option.bind_eq_some_iff.mp h
  have hs₁ : L₁.stack = rest := by rw [stack_of_pop h₁, hs]; rfl
  cases hout : cb.outcome with
  | error err =>
    simp only [hout] at h
    obtain ⟨L₂, h₂, h⟩ := Option.map_eq_some_iff.mp h
    obtain ⟨rfl, -⟩ := Prod.mk.inj h
    rw [stack_of_pop h₂, ← hs₁]
    rfl
  | ok vs =>
    simp only [hout] at h
    split at h
    · cases h
    · split at h
      · cases h
      · obtain ⟨L₂, h₂, h⟩ := Option.map_eq_some_iff.mp h
        obtain ⟨rfl, -⟩ := Prod.mk.inj h
        rw [stack_of_pop h₂, stack_foldl_push]
        show ((adjust 2 vs).reverse ++ L₁.stack).drop 2 = rest
        rw [hs₁]
        exact List.drop_left' (by rw [List.length_reverse, length_adjust])

/-! ## Requests -/

/-- One response is sent, no error raised, and the stack is as high as before. -/
def Answered (lib : LuaLib) (L : LuaState) (uri : List Char) (post : Bool) (cb : Callback) : Prop :=
  ∃ L' r, handleRequest lib L uri post cb = some (L', .returned [r]) ∧
    L'.stack.length = L.stack.length

/-- There are no callbacks, or the lookup succeeds and finds no function. -/
def NoCallback (lib : LuaLib) (L : LuaState) (uri : List Char) (post : Bool) : Prop :=
  callbacks L = .nil ∨ ∃ v, lookupIn lib L (callbacks L) (httpdKey uri post) = some v ∧
    ∀ f, v ≠ .function f

/-- **The callback bridge.**  A request is answered as it should be exactly if no
function is called for it. -/
theorem httpd_answered_iff (lib : LuaLib) (L : LuaState) (uri : List Char) (post : Bool)
    (cb : Callback) : Answered lib L uri post cb ↔ NoCallback lib L uri post := by
  unfold Answered NoCallback
  rw [handleRequest_eq]
  by_cases hnil : callbacks L = .nil
  · rw [if_pos hnil]
    exact iff_of_true ⟨L, _, rfl, rfl⟩ (Or.inl hnil)
  · rw [if_neg hnil]
    cases hv : lookupIn lib L (callbacks L) (httpdKey uri post) with
    | none =>
      refine iff_of_false ?_ (by simp [hnil])
      rintro ⟨L', r, h, -⟩
      cases h
    | some v =>
      cases v with
      | function f =>
        refine iff_of_false ?_ (by simp [hnil])
        rintro ⟨L', r, h, hlen⟩
        rw [finishRequest_stack rfl h, List.length_cons] at hlen
        omega
      | _ => exact iff_of_true ⟨L, _, rfl, rfl⟩ (Or.inr ⟨_, rfl, by simp⟩)

/-- A function for `/` that raises an error: the table stays on the stack. -/
theorem httpd_error_leaks : ¬ ∀ (lib : LuaLib) (L : LuaState) (uri : List Char) (post : Bool)
    (cb : Callback), Answered lib L uri post cb := by
  intro h
  let lib : LuaLib := ⟨fun _ _ => none, fun _ => none, fun _ => none⟩
  let heap : Nat → Key → Value := fun a k =>
    if a = 0 ∧ k = .field httpdCallbacks then .table 1
    else if a = 1 ∧ k = .field "/|GET".toList then .function 7 else .nil
  obtain ⟨L', r, hreq, hlen⟩ := h lib ⟨[], heap, 1⟩ "/".toList false ⟨.error .nil, heap, 1⟩
  have hrun : (handleRequest lib ⟨[], heap, 1⟩ "/".toList false ⟨.error .nil, heap, 1⟩).map
      (fun r => r.1.stack) = some [.table 1] := by decide +kernel
  rw [hreq] at hrun
  obtain hstack : L'.stack = [.table 1] := Option.some.inj hrun
  rw [hstack] at hlen
  cases hlen

end CLIos
