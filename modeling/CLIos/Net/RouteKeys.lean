import CLIos.Net.HttpdHandler

/-!
# The HTTP server: keys of registrations and requests

`store_lua_callback` formats `path|method` with the method as it was typed into
128 bytes, `lua_httpd_generic_handler` formats `uri|POST` or `uri|GET` into 1024
(components/NET/net_httpd.c).  `F_ON` registers a method that is `post` in any
case as POST and everything else as GET.  All of them read path and method up to
a NUL.

The two keys are the same where nothing is cut but the end of the method, and
keys that are the same on both sides do not collide, unless the paths differ
behind a NUL only.
-/

namespace CLIos

open LuaApi

/-- `!strcasecmp(method, "POST")` -/
def OnCall.isPost (c : OnCall) : Bool := c.methodName.map Char.toUpper == "POST".toList

/-- The name that the handler gives the method. -/
def methodText (post : Bool) : List Char := (if post then "POST" else "GET").toList

/-- `key` in `store_lua_callback` -/
def storeKey (c : OnCall) : List Char := snprintf 128 (c.uri ++ "|".toList ++ c.methodName)

/-- The registration and a request for what it registers have one key. -/
def KeysAgree (c : OnCall) : Prop := storeKey c = httpdKey c.uri c.isPost

/-- Both registrations agree with their requests, and if they are for different
paths or methods, their keys differ. -/
structure KeysOk (c d : OnCall) : Prop where
  left : KeysAgree c
  right : KeysAgree d
  differ : c.path ≠ d.path ∨ c.isPost ≠ d.isPost → storeKey c ≠ storeKey d

/-- Path, separator and the registered method fit into 127 characters, and as
much of the method as typed as fits too is that method. -/
def KeyFits (c : OnCall) : Prop :=
  c.uri.length + (methodText c.isPost).length ≤ 126 ∧
    c.methodName.take (126 - c.uri.length) = methodText c.isPost

/-- Both keys fit, and paths that differ do so before a NUL, or the methods differ. -/
structure KeysFit (c d : OnCall) : Prop where
  left : KeyFits c
  right : KeyFits d
  apart : c.path ≠ d.path → c.uri ≠ d.uri ∨ c.isPost ≠ d.isPost

theorem httpdKey_eq (uri : List Char) (post : Bool) :
    httpdKey uri post = (uri ++ '|' :: methodText post).take 1023 := by
  unfold httpdKey snprintf methodText
  rw [List.append_assoc]
  rfl

theorem storeKey_eq (c : OnCall) : storeKey c = (c.uri ++ '|' :: c.methodName).take 127 := by
  unfold storeKey snprintf
  rw [List.append_assoc]
  rfl

/-- Where the path leaves room, only the method is cut. -/
theorem take_key (p m : List Char) {n : Nat} (h : p.length ≤ n) :
    (p ++ '|' :: m).take (n + 1) = p ++ '|' :: m.take (n - p.length) := by
  rw [List.take_append, List.take_of_length_le (by omega),
    show n + 1 - p.length = (n - p.length) + 1 by omega, List.take_succ_cons]

theorem keysAgree_iff (c : OnCall) : KeysAgree c ↔ KeyFits c := by
  unfold KeysAgree KeyFits
  rw [storeKey_eq, httpdKey_eq]
  by_cases hfit : c.uri.length + (methodText c.isPost).length ≤ 126
  · have hfull : (c.uri ++ '|' :: methodText c.isPost).take 1023 =
        c.uri ++ '|' :: methodText c.isPost :=
      List.take_of_length_le (by rw [List.length_append, List.length_cons]; omega)
    rw [hfull, take_key c.uri c.methodName (show c.uri.length ≤ 126 by omega),
      List.append_right_inj, List.cons.injEq]
    simp [hfit]
  · -- the handler's key is longer than 127 characters
    refine iff_of_false (fun heq => ?_) fun h => hfit h.1
    have hlen := congrArg List.length heq
    simp only [List.length_take, List.length_append, List.length_cons] at hlen
    omega

/-- The end of a key tells the method, and the rest the path. -/
theorem key_injective {p q : List Char} {post post' : Bool}
    (h : p ++ '|' :: methodText post = q ++ '|' :: methodText post') : p = q ∧ post = post' := by
  cases post <;> cases post'
  · exact ⟨List.append_cancel_right h, rfl⟩
  · have := congrArg List.reverse h
    simp [methodText] at this
  · have := congrArg List.reverse h
    simp [methodText] at this
  · exact ⟨List.append_cancel_right h, rfl⟩

theorem storeKey_of_fits {c : OnCall} (h : KeyFits c) :
    storeKey c = c.uri ++ '|' :: methodText c.isPost := by
  rw [storeKey_eq, take_key c.uri c.methodName (show c.uri.length ≤ 126 by have := h.1; omega),
    h.2]

/-- **Route keys.**  The keys of two registrations are as they should be exactly
if each fits its buffer with the method typed as the handler writes it, and no NUL
hides where the paths differ. -/
theorem route_keys_iff (c d : OnCall) : KeysOk c d ↔ KeysFit c d := by
  constructor
  · intro h
    have hc := (keysAgree_iff c).mp h.left
    have hd := (keysAgree_iff d).mp h.right
    refine ⟨hc, hd, fun hne => ?_⟩
    by_contra hsame
    obtain ⟨huri, hpost⟩ := not_or.mp hsame
    apply h.differ (Or.inl hne)
    rw [storeKey_of_fits hc, storeKey_of_fits hd, not_not.mp huri, not_not.mp hpost]
  · intro h
    refine ⟨(keysAgree_iff c).mpr h.left, (keysAgree_iff d).mpr h.right, fun hne heq => ?_⟩
    rw [storeKey_of_fits h.left, storeKey_of_fits h.right] at heq
    obtain ⟨huri, hpost⟩ := key_injective heq
    rcases hne with hne | hne
    · exact (h.apart hne).elim (absurd huri) (absurd hpost)
    · exact hne hpost

/-- `srv:on("/", "post", f)`: the request is looked up under `/|POST`. -/
def onLowerCase : OnCall := ⟨0, "/".toList, some "post".toList, 1, 5, true⟩

theorem route_key_lowerCase : ¬ ∀ c d, KeysOk c d := by
  intro h
  have hkey : storeKey onLowerCase = httpdKey onLowerCase.uri onLowerCase.isPost :=
    (h onLowerCase onLowerCase).left
  exact absurd hkey (by decide +kernel)

end CLIos
