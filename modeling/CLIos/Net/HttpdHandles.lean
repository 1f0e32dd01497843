import CLIos.Lib.Collector
import CLIos.Net.RouteKeys

/-!
# The HTTP server: how long a handle lives

`httpd.start` makes a `lua_httpd_t` as a userdata, and `F_ON` gives the server a
pointer to it as `user_ctx` (components/NET/net_httpd.c).  The registry gets the
function and the table of callbacks, not the userdata (`httpd_no_userdata`), and there
is no `__gc`: the server runs on when its handle is collected.

Here the handles and the functions are objects of a collected heap.  Object 0 is
the registry, object 1 the globals and the stack of the script.  The script names
objects by paths; it may change what any object but the registry refers to.
-/

namespace CLIos

open Collector Collector.Heap LuaApi Runs

/-- `httpd_uri_t` -/
structure UriHandler where
  uri : List Char
  post : Bool
  userCtx : Nat
deriving DecidableEq

structure HttpdServer where
  /-- the `lua_httpd_t` whose `srv` it is -/
  handle : Nat
  running : Bool
  handlers : List UriHandler
deriving DecidableEq

structure HttpdLua where
  heap : Heap
  /-- the objects that are functions -/
  functions : List Nat
  servers : List HttpdServer

inductive HttpdCall where
  /-- `httpd.start()`; `ok` is what `httpd_start` answers -/
  | start (ok : Bool)
  /-- `srv:on(path, method, f)` -/
  | on (srv : Path) (path : List Char) (method : Option (List Char)) (f : Path) (registered : Bool)
  | stop (srv : Path)
  /-- a request arrives at a server -/
  | request (server : Nat) (uri : List Char) (post : Bool)
  /-- the script makes a function, or a table, that refers to `vs` -/
  | make (isFunction : Bool) (vs : List Path)
  /-- the script has an object refer to `vs` -/
  | assign (o : Path) (vs : List Path)

inductive HttpdEvent where
  | call (c : HttpdCall)
  | collect (kept : List Nat)

/-- `rawset` stores what is on top. -/
theorem rawset_userdata {L L' : LuaState} {idx : Int} {k : Key} (h : L.rawset idx k = some L')
    (htop : ∀ u rest, L.stack ≠ .userdata u :: rest) {a u : Nat} {k' : Key}
    (hu : L'.heap a k' = .userdata u) : L.heap a k' = .userdata u := by
  unfold LuaState.rawset at h
  split at h
  · next v rest _ hstack =>
    obtain rfl := Option.some.inj h
    have hu : (if _ then v else L.heap a k') = .userdata u := hu
    split at hu
    · exact absurd (hu ▸ hstack) (htop u rest)
    · exact hu
  · cases h

theorem pushCallbacks_userdata {L L' : LuaState} (h : pushCallbacks L = some L') {a u : Nat}
    {k : Key} (hu : L'.heap a k = .userdata u) : L.heap a k = .userdata u := by
  obtain ⟨L₁, h₁, -, hh₁, -⟩ := L.getfield_spec httpdCallbacks L.slot_registry
  unfold pushCallbacks at h
  rw [h₁, Option.bind_some] at h
  split at h
  · obtain ⟨L₂, h₂, h⟩ := Option.bind_eq_some_iff.mp h
    obtain ⟨L₃, h₃, h⟩ := Option.bind_eq_some_iff.mp h
    have hh₂ := L₁.pop_heap h₂
    obtain ⟨L₄, h₄, hs₄, hh₄, -⟩ := L₂.newtable.pushvalue_spec (L₂.newtable.slot_top _ _ rfl)
    obtain rfl : L₄ = L₃ := Option.some.inj (h₄.symm.trans h₃)
    have hu := rawset_userdata h (by simp [hs₄]) hu
    rw [hh₄] at hu
    have hu : (if a = L₂.made + 1 then Value.nil else L₂.heap a k) = .userdata u := hu
    split at hu
    · cases hu
    · rw [← hh₁, ← hh₂]
      exact hu
  · obtain rfl := Option.some.inj h
    rw [← hh₁]
    exact hu

/-- `F_ON` stores the function and the table of callbacks, and no userdata. -/
theorem fOn_userdata {L L' : LuaState} {c : OnCall} (h : fOn L c = some L') {a u : Nat} {k : Key}
    (hu : L'.heap a k = .userdata u) : L.heap a k = .userdata u := by
  let method : Value := (c.method.map Value.string).getD .nil
  let L₁ : LuaState := { L with
    stack := [.function c.f, method, .string c.path, .userdata c.server] }
  obtain ⟨L₂, h₂, hs₂, hh₂, -⟩ := L₁.pushvalue_spec (L₁.slot_bottom 3)
  unfold fOn at h
  have h : (L₁.pushvalue 4).bind _ = some L' := h
  rw [show L₁.pushvalue 4 = some L₂ from h₂, Option.bind_some] at h
  obtain ⟨L₃, h₃, h⟩ := Option.bind_eq_some_iff.mp h
  obtain ⟨L₆, h₆, h⟩ := Option.bind_eq_some_iff.mp h
  obtain rfl := Option.some.inj h
  obtain ⟨L₄, h₄, h₆⟩ := Option.bind_eq_some_iff.mp h₆
  obtain ⟨L₅, h₅, h₆⟩ := Option.bind_eq_some_iff.mp h₆
  -- `lua_rawseti` indexes what it stores, so that is a table
  have htop : ∀ u rest, L₄.stack ≠ .userdata u :: rest := by
    intro u rest hs
    unfold LuaState.rawseti LuaState.rawset at h₅
    rw [L₄.slot_top _ _ hs] at h₅
    cases h₅
  have hu₅ : L₅.heap a k = .userdata u := L₅.pop_heap h₆ ▸ hu
  have hu₃ := pushCallbacks_userdata h₄ (rawset_userdata h₅ htop hu₅)
  have hu₂ := rawset_userdata h₃ (by simp [hs₂]) hu₃
  exact hh₂ ▸ hu₂

theorem httpd_no_userdata (calls : List OnCall) :
    httpd.Always (fun L => ∀ a k u, L.heap a k ≠ .userdata u) calls :=
  Machine.always_of_step (fun _ _ _ hu => Value.noConfusion hu)
    (fun _ _ _ h hs a k u hu => h a k u (fOn_userdata hs hu)) calls

namespace HttpdLua

def registry : Nat := 0

def script : Nat := 1

def start : HttpdLua where
  heap := ⟨2, fun o => if o = registry then [script] else [], []⟩
  functions := []
  servers := []

/-- `luaL_checkudata(L, 1, "httpd.handle")` -/
def isHandle (s : HttpdLua) (k : Nat) : Bool := s.servers.any fun v => v.handle = k

def lHttpdStart (s : HttpdLua) (ok : Bool) : HttpdLua :=
  let k := s.heap.made
  if ok then
    { s with
      heap := (s.heap.make []).addRef script k
      servers := s.servers ++ [⟨k, true, []⟩] }
  else { s with heap := s.heap.make [] }

/-- `httpd_register_uri_handler(h->srv, &uri)`, which fails for NULL. -/
def registerUri (s : HttpdLua) (k : Nat) (h : UriHandler) : HttpdLua :=
  { s with servers := s.servers.map fun v =>
      if v.handle = k ∧ v.running = true then { v with handlers := v.handlers ++ [h] } else v }

def fOn (s : HttpdLua) (k : Nat) (path : List Char) (method : Option (List Char)) (f : Nat)
    (registered : Bool) : HttpdLua :=
  let s := { s with heap := s.heap.addRef registry f }
  let post := (cString (method.getD "GET".toList)).map Char.toUpper == "POST".toList
  if registered then s.registerUri k ⟨cString path, post, k⟩ else s

/-- `httpd_stop(h->srv)` -/
def fStop (s : HttpdLua) (k : Nat) : HttpdLua :=
  { s with servers := s.servers.map fun v => if v.handle = k then { v with running := false } else v }

/-- A call; `luaL_checkudata` and `luaL_checktype` may raise an error. -/
def step (s : HttpdLua) : HttpdEvent → Option HttpdLua
  | .call (.start ok) => some (s.lHttpdStart ok)
  | .call (.on srv path method f registered) =>
    (follow s.heap.refs srv).bind fun k => (follow s.heap.refs f).bind fun g =>
    if s.isHandle k && s.functions.contains g then some (s.fOn k path method g registered)
    else some s
  | .call (.stop srv) =>
    (follow s.heap.refs srv).bind fun k => if s.isHandle k then some (s.fStop k) else some s
  | .call (.request _ _ _) => some s
  | .call (.make isFunction vs) =>
    (followAll s.heap.refs vs).map fun xs =>
      { s with
        heap := (s.heap.make xs).addRef script s.heap.made
        functions := if isFunction then s.functions ++ [s.heap.made] else s.functions }
  | .call (.assign o vs) =>
    (follow s.heap.refs o).bind fun k =>
    if k = registry then none
    else (followAll s.heap.refs vs).map fun xs => { s with heap := s.heap.setRefs k xs }
  | .collect kept => (s.heap.collect kept).map fun h => { s with heap := h }

/-- The `user_ctx` of the handler that the server calls for a request. -/
def dispatched (s : HttpdLua) (server : Nat) (uri : List Char) (post : Bool) : Option Nat :=
  s.servers[server]?.bind fun v =>
  if v.running then
    (v.handlers.find? fun h => h.uri = uri && h.post = post).map UriHandler.userCtx
  else none

/-- `P` holds of the `user_ctx` that a request hands to `lua_httpd_generic_handler`. -/
def AtDispatch (P : HttpdLua → Nat → Prop) (s : HttpdLua) (e : HttpdEvent) : Prop :=
  ∀ server uri post k, e = .call (.request server uri post) →
    s.dispatched server uri post = some k → P s k

end HttpdLua

def httpdLua : Machine HttpdLua HttpdEvent where
  init := HttpdLua.start
  step := HttpdLua.step

namespace HttpdLua

/-- The heap is sound, the registry leads to the script, and servers know objects
that were made. -/
structure Inv (s : HttpdLua) : Prop where
  sound : s.heap.Sound
  script : script ∈ s.heap.refs registry
  ctx_made : ∀ v ∈ s.servers, ∀ h ∈ v.handlers, h.userCtx < s.heap.made

theorem Inv.reach_script {s : HttpdLua} (h : s.Inv) : s.heap.Reach HttpdLua.script :=
  Reach.root.step h.script

theorem inv_start : start.Inv where
  sound := by
    have hrefs : ∀ o x, x ∈ start.heap.refs o → x = HttpdLua.script := by
      intro o x hx
      by_cases ho : o = registry
      · simpa [start, ho] using hx
      · simp [start, ho] at hx
    refine ⟨Nat.succ_pos 1, fun o x hx => ?_, fun o ho => absurd ho List.not_mem_nil,
      fun o _ => List.not_mem_nil⟩
    rw [hrefs o x hx]
    exact Nat.lt_succ_self 1
  script := List.mem_singleton.mpr rfl
  ctx_made := fun v hv => absurd hv List.not_mem_nil

theorem Inv.withHeap {s : HttpdLua} (h : s.Inv) {heap : Heap} (hsound : heap.Sound)
    (hscript : HttpdLua.script ∈ heap.refs registry) (hmade : s.heap.made ≤ heap.made) :
    Inv { s with heap := heap } where
  sound := hsound
  script := hscript
  ctx_made := fun v hv k hk => Nat.lt_of_lt_of_le (h.ctx_made v hv k hk) hmade

/-- Only handles and what they refer to matter, not which objects are functions. -/
theorem Inv.withFunctions {s : HttpdLua} (h : s.Inv) (functions : List Nat) :
    Inv { s with functions := functions } :=
  ⟨h.sound, h.script, h.ctx_made⟩

/-- A new object of the script. -/
theorem Inv.make {s : HttpdLua} (h : s.Inv) {xs : List Nat} (hxs : ∀ x ∈ xs, s.heap.Reach x) :
    Inv { s with heap := (s.heap.make xs).addRef HttpdLua.script s.heap.made } := by
  refine h.withHeap (h.sound.make_addRef h.reach_script hxs) ?_ (Nat.le_succ _)
  have hne : 0 ≠ s.heap.made := Nat.ne_of_lt h.sound.made_pos
  have hscript := h.script
  simpa [Heap.addRef, Heap.setRefs, Heap.make, hne, registry, HttpdLua.script] using hscript

theorem Inv.lHttpdStart {s : HttpdLua} (h : s.Inv) (ok : Bool) : (s.lHttpdStart ok).Inv := by
  have hnone : ∀ x ∈ ([] : List Nat), s.heap.Reach x := fun x hx => absurd hx List.not_mem_nil
  unfold HttpdLua.lHttpdStart
  split
  · have hmake := h.make hnone
    refine ⟨hmake.sound, hmake.script, fun v hv k hk => ?_⟩
    rcases List.mem_append.mp hv with hv | hv
    · exact hmake.ctx_made v hv k hk
    · obtain rfl := List.mem_singleton.mp hv
      exact absurd hk List.not_mem_nil
  · refine h.withHeap (h.sound.make hnone) ?_ (Nat.le_succ _)
    have hne : registry ≠ s.heap.made := Nat.ne_of_lt h.sound.made_pos
    have hscript := h.script
    simpa [Heap.make, hne] using hscript

/-- The registry gets the function, the server a pointer to the handle. -/
theorem Inv.fOn {s : HttpdLua} (h : s.Inv) {k g : Nat} (hk : s.heap.Reach k) (hg : s.heap.Reach g)
    (path : List Char) (method : Option (List Char)) (registered : Bool) :
    (s.fOn k path method g registered).Inv := by
  have hadd : Inv { s with heap := s.heap.addRef registry g } := by
    refine h.withHeap (h.sound.addRef .root hg) ?_ (Nat.le_refl _)
    have hscript : HttpdLua.script ∈ s.heap.refs registry ++ [g] :=
      List.mem_append.mpr (Or.inl h.script)
    simpa [Heap.addRef, Heap.setRefs] using hscript
  unfold HttpdLua.fOn
  cases registered with
  | false => exact hadd
  | true =>
    refine ⟨hadd.sound, hadd.script, fun v hv u hu => ?_⟩
    obtain ⟨w, hw, rfl⟩ := List.mem_map.mp hv
    split at hu
    · rcases List.mem_append.mp hu with hu | hu
      · exact hadd.ctx_made w hw u hu
      · obtain rfl := List.mem_singleton.mp hu
        exact h.sound.reach_made hk
    · exact hadd.ctx_made w hw u hu

theorem Inv.fStop {s : HttpdLua} (h : s.Inv) (k : Nat) : (s.fStop k).Inv where
  sound := h.sound
  script := h.script
  ctx_made := by
    intro v hv u hu
    obtain ⟨w, hw, rfl⟩ := List.mem_map.mp hv
    refine h.ctx_made w hw u ?_
    split at hu <;> exact hu

theorem Inv.step {s s' : HttpdLua} {e : HttpdEvent} (h : s.Inv) (hs : s.step e = some s') :
    s'.Inv := by
  cases e with
  | collect kept =>
    obtain ⟨heap, hc, rfl⟩ := Option.map_eq_some_iff.mp hs
    have hrest := (collect_eq_some hc).1
    refine h.withHeap (h.sound.collect hc) ?_ (by rw [hrest])
    rw [hrest]
    exact h.script
  | call c =>
    cases c with
    | start ok =>
      obtain rfl := Option.some.inj hs
      exact h.lHttpdStart ok
    | on srv path method f registered =>
      obtain ⟨k, hk, hs⟩ := Option.bind_eq_some_iff.mp hs
      obtain ⟨g, hg, hs⟩ := Option.bind_eq_some_iff.mp hs
      split at hs <;> cases hs
      · exact h.fOn (Reach.of_follow hk) (Reach.of_follow hg) path method registered
      · exact h
    | stop srv =>
      obtain ⟨k, -, hs⟩ := Option.bind_eq_some_iff.mp hs
      split at hs <;> cases hs
      · exact h.fStop k
      · exact h
    | request server uri post =>
      obtain rfl := Option.some.inj hs
      exact h
    | make isFunction vs =>
      obtain ⟨xs, hxs, rfl⟩ := Option.map_eq_some_iff.mp hs
      exact (h.make (Reach.of_followAll hxs)).withFunctions _
    | assign o vs =>
      obtain ⟨k, -, hs⟩ := Option.bind_eq_some_iff.mp hs
      split at hs
      · cases hs
      · next hk =>
        obtain ⟨xs, hxs, rfl⟩ := Option.map_eq_some_iff.mp hs
        refine h.withHeap (h.sound.setRefs k (Reach.of_followAll hxs)) ?_ (Nat.le_refl _)
        have hscript := h.script
        simpa [Heap.setRefs, Ne.symm hk] using hscript

theorem dispatched_made {s : HttpdLua} (h : s.Inv) {server k : Nat} {uri : List Char} {post : Bool}
    (hd : s.dispatched server uri post = some k) : k < s.heap.made := by
  obtain ⟨v, hv, hd⟩ := Option.bind_eq_some_iff.mp hd
  split at hd
  · obtain ⟨u, hu, rfl⟩ := Option.map_eq_some_iff.mp hd
    exact h.ctx_made v (List.mem_of_getElem? hv) u (List.mem_of_find?_eq_some hu)
  · cases hd

/-! ## With and without a collector -/

/-- The state as if nothing had been collected. -/
def uncollected (s : HttpdLua) : HttpdLua := { s with heap := { s.heap with freed := [] } }

theorem step_uncollected (s : HttpdLua) (c : HttpdCall) :
    s.uncollected.step (.call c) = (s.step (.call c)).map uncollected := by
  cases c with
  | start ok => cases ok <;> rfl
  | on srv path method f registered =>
    show (follow s.heap.refs srv).bind _ = Option.map _ ((follow s.heap.refs srv).bind _)
    cases follow s.heap.refs srv with
    | none => rfl
    | some k =>
      show (follow s.heap.refs f).bind _ = Option.map _ ((follow s.heap.refs f).bind _)
      cases follow s.heap.refs f with
      | none => rfl
      | some g =>
        show (if s.isHandle k && s.functions.contains g then _ else _) =
          Option.map _ (if s.isHandle k && s.functions.contains g then _ else _)
        cases s.isHandle k && s.functions.contains g <;> cases registered <;> rfl
  | stop srv =>
    show (follow s.heap.refs srv).bind _ = Option.map _ ((follow s.heap.refs srv).bind _)
    cases follow s.heap.refs srv with
    | none => rfl
    | some k =>
      show (if s.isHandle k then _ else _) = Option.map _ (if s.isHandle k then _ else _)
      cases s.isHandle k <;> rfl
  | request server uri post => rfl
  | make isFunction vs =>
    show (followAll s.heap.refs vs).map _ = Option.map _ ((followAll s.heap.refs vs).map _)
    cases followAll s.heap.refs vs <;> rfl
  | assign o vs =>
    show (follow s.heap.refs o).bind _ = Option.map _ ((follow s.heap.refs o).bind _)
    cases follow s.heap.refs o with
    | none => rfl
    | some k =>
      show (if k = registry then none else (followAll s.heap.refs vs).map _) =
        Option.map _ (if k = registry then none else (followAll s.heap.refs vs).map _)
      split
      · rfl
      · cases followAll s.heap.refs vs <;> rfl

end HttpdLua

def HttpdEvent.calls : HttpdEvent → List HttpdCall
  | .call c => [c]
  | .collect _ => []

/-- What the script and the clients do, without the collections. -/
def callsOf (es : List HttpdEvent) : List HttpdCall := es.flatMap HttpdEvent.calls

namespace HttpdLua

/-- Collections change nothing but what is freed. -/
theorem run_callsOf (es : List HttpdEvent) (s : HttpdLua) (h : httpdLua.run es = some s) :
    httpdLua.run ((callsOf es).map .call) = some s.uncollected := by
  have hsim := Machine.run_of_simulation (N := httpdLua) uncollected
    (fun e => e.calls.map .call) rfl ?_ es s h
  · rw [callsOf, List.map_flatMap]
    exact hsim
  · intro s e s' hs
    cases e with
    | call c =>
      have hstep := s.step_uncollected c
      rw [show s.step (.call c) = some s' from hs] at hstep
      show List.foldlM httpdLua.step s.uncollected [HttpdEvent.call c] = _
      rw [List.foldlM_cons]
      show (s.uncollected.step (.call c)).bind _ = _
      rw [hstep]
      rfl
    | collect kept =>
      obtain ⟨heap, hc, rfl⟩ := Option.map_eq_some_iff.mp hs
      have hrest := (collect_eq_some hc).1
      show some s.uncollected = some _
      unfold uncollected
      rw [hrest]

end HttpdLua

theorem callsOf_append (l m : List HttpdEvent) : callsOf (l ++ m) = callsOf l ++ callsOf m :=
  List.flatMap_append

theorem callsOf_map_call (cs : List HttpdCall) : callsOf (cs.map .call) = cs := by
  unfold callsOf
  rw [List.flatMap_map]
  exact List.flatMap_singleton' cs

theorem httpdLua_inv (es : List HttpdEvent) : httpdLua.Always HttpdLua.Inv es :=
  Machine.always_of_step HttpdLua.inv_start (fun _ _ _ h hs => h.step hs) es

/-- **Handles.**  However the collector runs, no request meets a handle that was
collected, exactly if at every request something still refers to the handle. -/
theorem handles_outlive_iff (cs : List HttpdCall) :
    (∀ es, callsOf es = cs →
      httpdLua.Along (HttpdLua.AtDispatch fun s k => k ∉ s.heap.freed) es) ↔
      httpdLua.Along (HttpdLua.AtDispatch fun s k => s.heap.Reach k) (cs.map .call) := by
  constructor
  · rintro h l e s s' ⟨rest, hrest⟩ hs hstep server uri post k rfl hk
    by_contra hun
    have hinv := httpdLua_inv l l s List.prefix_rfl hs
    obtain ⟨kept, heap, hc, hfreed⟩ := hinv.sound.exists_collect
    -- a collection just before the request takes the handle
    let e : HttpdEvent := .call (.request server uri post)
    have hcalls : callsOf (l ++ [.collect kept] ++ [e] ++ rest) = cs := by
      rw [← callsOf_map_call cs, ← hrest]
      simp only [callsOf_append]
      show callsOf l ++ [] ++ _ ++ _ = _
      rw [List.append_nil]
    have hrun : httpdLua.run (l ++ [.collect kept]) = some { s with heap := heap } := by
      refine (httpdLua.run_concat_eq_some l (.collect kept) _).mpr ⟨s, hs, ?_⟩
      show (s.heap.collect kept).map _ = _
      rw [hc]
      rfl
    refine h _ hcalls (l ++ [.collect kept]) e _ { s with heap := heap } ⟨rest, rfl⟩ hrun rfl
      server uri post k rfl hk ?_
    exact hfreed k (HttpdLua.dispatched_made hinv hk) hun
  · rintro h es rfl l e s s' ⟨rest, hrest⟩ hs hstep server uri post k rfl hk
    have hinv := httpdLua_inv l l s List.prefix_rfl hs
    have hpre : (callsOf l).map HttpdEvent.call ++ [.call (.request server uri post)] <+:
        (callsOf es).map .call := by
      rw [← hrest]
      simp only [callsOf_append, List.map_append]
      exact List.prefix_append _ _
    have hreach := h _ _ _ s.uncollected hpre (HttpdLua.run_callsOf l s hs) rfl
      server uri post k rfl hk
    have hrefs : s.heap.refs = s.uncollected.heap.refs := rfl
    exact hinv.sound.live k (Reach.congr hrefs hreach)

/-- A server with a function for `/`, made by a script that keeps nothing; the handle
is collected, then there is a request. -/
def handleDropped : List HttpdEvent :=
  [.call (.start true), .call (.make true []), .call (.on [0, 0] "/".toList none [0, 1] true),
    .call (.assign [0] []), .collect [0, 1, 3], .call (.request 0 "/".toList false)]

theorem handle_collected :
    ¬ ∀ es, httpdLua.Along (HttpdLua.AtDispatch fun s k => k ∉ s.heap.freed) es := by
  intro h
  have hrun : ∃ s, httpdLua.run (handleDropped.take 5) = some s ∧
      s.dispatched 0 "/".toList false = some 2 ∧ 2 ∈ s.heap.freed :=
    ⟨_, rfl, by decide, by decide⟩
  obtain ⟨s, hs, hd, hfreed⟩ := hrun
  exact h handleDropped (handleDropped.take 5) _ s s List.prefix_rfl hs rfl 0 _ false 2 rfl hd hfreed

end CLIos
