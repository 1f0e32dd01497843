import CLIos.Net.Http

/-!
# The HTTP client: headers, and what is released

The header loop of `L_HTTP_REQUEST` converts a key that is a number in the slot
that drives `lua_next` (components/NET/net_http.c): the next round goes on after
the string, which is another key or none.  So all headers are sent exactly if no
key is a number.

The errors of the header loop, of `ensure_ok` and of `lua_pushlstring` leave the
function without the calls at its end.
-/

namespace CLIos

open LuaApi Traversal

/-! ## Headers -/

namespace HttpTurn

/-- What is to be sent for an entry. -/
def header (t : HttpTurn) (e : Value × Value) : HttpClientCall :=
  .setHeader (t.texts.text e.1) (t.texts.text e.2)

/-- The loop ends without an error, with one call for each entry. -/
def HeadersSent (t : HttpTurn) (headers : Table Value Value) : Prop :=
  ∃ fuel sent, t.headerLoop fuel (some headers) = some (sent, .ended) ∧
    sent.Perm (headers.entries.map t.header)

/-- The key is a string, the value becomes one, and C reads both to the end. -/
structure Sendable (t : HttpTurn) (e : Value × Value) : Prop where
  key : ∃ s, e.1 = .string s ∧ '\x00' ∉ s
  value : ∃ s, t.texts.checkString e.2 = some s ∧ '\x00' ∉ s

variable {t : HttpTurn}

theorem headerRound_eq_some {key value : Value} {r : Value × HttpClientCall}
    (h : t.headerRound key value = some r) :
    ∃ v, r.1 = .string (t.texts.text key) ∧ t.texts.checkString value = some v ∧
      r.2 = .setHeader (cString (t.texts.text key)) (cString v) := by
  obtain ⟨k, hk, h⟩ := Option.bind_eq_some_iff.mp h
  obtain ⟨v, hv, rfl⟩ := Option.map_eq_some_iff.mp h
  rw [t.texts.text_of_checkString hk]
  exact ⟨v, rfl, hv, rfl⟩

/-- The call that is made for an entry. -/
def sentHeader (t : HttpTurn) (e : Value × Value) : HttpClientCall :=
  .setHeader (cString (t.texts.text e.1)) (cString (t.texts.text e.2))

theorem headerRound_string {e : Value × Value} (hkey : ∃ s, e.1 = .string s)
    (hvalue : ∃ v, t.texts.checkString e.2 = some v) :
    t.headerRound e.1 e.2 = some (e.1, t.sentHeader e) := by
  obtain ⟨s, hs⟩ := hkey
  obtain ⟨v, hv⟩ := hvalue
  have hk : t.texts.checkString e.1 = some s := by rw [hs]; rfl
  unfold headerRound sentHeader
  rw [hk, hv, t.texts.text_of_checkString hk, t.texts.text_of_checkString hv, hs]
  rfl

/-- All entries sent: every key was a cursor, and cursors are strings. -/
theorem HeadersSent.rounds {headers : Table Value Value} (h : t.HeadersSent headers) :
    ∀ e ∈ headers.entries, t.headerRound e.1 e.2 = some (e.1, t.sentHeader e) := by
  obtain ⟨fuel, sent, hloop, hperm⟩ := h
  obtain ⟨⟨rs, d⟩, hrs, heq⟩ := Option.map_eq_some_iff.mp hloop
  cases heq
  have hlen : rs.length = headers.entries.length := by
    have := hperm.length_eq
    rwa [List.length_map, List.length_map] at this
  have hround : ∀ e ∈ headers.entries, ∃ e' ∈ headers.entries, ∃ v,
      e.1 = .string (t.texts.text e'.1) ∧ t.texts.checkString e'.2 = some v := by
    intro e he
    obtain ⟨r, hr, hkey⟩ := Table.loop_covers hrs hlen e.1 (List.mem_map_of_mem he)
    obtain ⟨e', he', hbody⟩ := Table.loop_body hrs r hr
    obtain ⟨v, hcursor, hv, -⟩ := headerRound_eq_some hbody
    exact ⟨e', he', v, hkey.symm.trans hcursor, hv⟩
  intro e he
  obtain ⟨e', he', v, hkey, hv⟩ := hround e he
  obtain ⟨e'', -, -, hkey', -⟩ := hround e' he'
  -- the entry whose round left this cursor is the entry of the cursor
  have hsame : e' = e := by
    refine headers.entry_ext he' he ?_
    rw [hkey, hkey']
    rfl
  exact headerRound_string ⟨_, hkey⟩ ⟨v, hsame ▸ hv⟩

/-- **Headers.**  Each header is sent once exactly if every key is a string, every
value becomes one, and none holds a NUL. -/
theorem headers_sent_iff (t : HttpTurn) (headers : Table Value Value) :
    t.HeadersSent headers ↔ ∀ e ∈ headers.entries, t.Sendable e := by
  constructor
  · intro h
    have hrounds := h.rounds
    have hall := Table.loop_all hrounds
    obtain ⟨fuel, sent, hloop, hperm⟩ := h
    obtain ⟨⟨rs, d⟩, hrs, heq⟩ := Option.map_eq_some_iff.mp hloop
    cases heq
    cases Table.loop_unique hrs hall
    intro e he
    have hmem := hperm.mem_iff.mpr (List.mem_map_of_mem (f := t.header) he)
    obtain ⟨r, hr, heq⟩ := List.mem_map.mp hmem
    obtain ⟨e', he', rfl⟩ := List.mem_map.mp hr
    have hcall : t.sentHeader e' = t.header e := heq
    unfold sentHeader header at hcall
    rw [HttpClientCall.setHeader.injEq] at hcall
    obtain ⟨v, hkey, hv, -⟩ := headerRound_eq_some (hrounds e he)
    refine ⟨⟨_, hkey, ?_⟩, v, hv, ?_⟩
    · rw [← hcall.1]
      exact nul_notMem_cString _
    · rw [← t.texts.text_of_checkString hv, ← hcall.2]
      exact nul_notMem_cString _
  · intro h
    have hsent : ∀ e ∈ headers.entries, t.sentHeader e = t.header e := by
      intro e he
      obtain ⟨⟨s, hs, hnul⟩, v, hv, hnul'⟩ := h e he
      unfold sentHeader header
      rw [t.texts.text_of_checkString hv, (cString_eq_self_iff v).mpr hnul', hs]
      have htext : t.texts.text (.string s) = s := rfl
      rw [htext, (cString_eq_self_iff s).mpr hnul]
    have hrounds : ∀ e ∈ headers.entries, t.headerRound e.1 e.2 = some (e.1, t.sentHeader e) :=
      fun e he =>
        headerRound_string ((h e he).key.imp fun _ hs => hs.1) ((h e he).value.imp fun _ hv => hv.1)
    refine ⟨_, _, by rw [headerLoop_some, Table.loop_all hrounds]; rfl, ?_⟩
    rw [List.map_map]
    exact .of_eq (List.map_congr_left hsent)

end HttpTurn

/-- A string or a number. -/
def isText : Value → Bool
  | .string _ => true
  | .integer _ => true
  | .float _ => true
  | _ => false

/-- `http.request(m, u, b, {"gzip"})`: the key 1 becomes "1", which is no key. -/
def numberedHeaders : Table Value Value where
  entries := [(.integer 1, .string "gzip".toList)]
  nodup := List.nodup_singleton _

theorem numbered_headers_raise : ¬ ∀ (t : HttpTurn) (headers : Table Value Value),
    (∀ e ∈ headers.entries, isText e.1 = true ∧ isText e.2 = true) → t.HeadersSent headers := by
  intro h
  have htext : ∀ e ∈ numberedHeaders.entries, isText e.1 = true ∧ isText e.2 = true := by decide
  obtain ⟨fuel, sent, hloop, -⟩ := h (httpTurn 0 []) numberedHeaders htext
  have hraise : ∃ sent, (httpTurn 0 []).headerLoop 2 (some numberedHeaders) = some (sent, .raised) :=
    ⟨_, rfl⟩
  obtain ⟨sent', hraise⟩ := hraise
  cases HttpTurn.headerLoop_unique hloop hraise

/-! ## What is released -/

/-- The handle, if there is one, was cleaned up once, and the block, if there is
one, freed once. -/
structure Released (calls : List HttpClientCall) : Prop where
  handle : ∀ url, .init url ∈ calls → calls.count .cleanup = 1
  buffer : ∀ n, .malloc n ∈ calls → calls.count .free = 1

/-- The header loop raises no error, the response is accepted, and with a block
there is memory for the result as well. -/
structure Releases (t : HttpTurn) (args : HttpArgs) : Prop where
  headers : ¬ t.HeadersStop args.headers .raised
  performed : t.HeadersStop args.headers .ended → t.performed = 0
  pushed : t.HeadersStop args.headers .ended → t.Buffered → t.pushed = true

/-- A call that neither takes nor releases. -/
def HttpClientCall.isNeutral : HttpClientCall → Bool
  | .init _ | .malloc _ | .cleanup | .free => false
  | _ => true

section

variable {u : List Char} {n : Nat} {rest reads : List HttpClientCall}

theorem neutral_counts (h : ∀ c ∈ rest, c.isNeutral = true) :
    rest.count .cleanup = 0 ∧ rest.count .free = 0 ∧ ∀ n, .malloc n ∉ rest := by
  have hnot : ∀ c : HttpClientCall, c.isNeutral = false → c ∉ rest := by
    intro c hc hmem
    rw [h c hmem] at hc
    cases hc
  exact ⟨List.count_eq_zero.mpr (hnot _ rfl), List.count_eq_zero.mpr (hnot _ rfl),
    fun n => hnot _ rfl⟩

/-! The ways to leave after `esp_http_client_init`. -/

theorem not_released_early (h : ∀ c ∈ rest, c.isNeutral = true) :
    ¬ Released (.init u :: rest) := by
  intro hr
  have hcount := hr.handle u List.mem_cons_self
  rw [List.count_cons_of_ne (by simp), (neutral_counts h).1] at hcount
  cases hcount

theorem released_plain (h : ∀ c ∈ rest, c.isNeutral = true) :
    Released (.init u :: rest ++ [.cleanup]) := by
  obtain ⟨hcleanup, -, hmalloc⟩ := neutral_counts h
  refine ⟨fun _ _ => ?_, fun n hn => ?_⟩
  · simp [List.count_append, hcleanup]
  · exact absurd hn (by simpa using hmalloc n)

theorem not_released_block (h : ∀ c ∈ rest, c.isNeutral = true)
    (hr : ∀ c ∈ reads, c.isNeutral = true) :
    ¬ Released (.init u :: rest ++ [.malloc n] ++ reads ++ [.cleanup]) := by
  intro hrel
  have hcount := hrel.buffer n (by simp)
  simp [List.count_append, (neutral_counts h).2.1, (neutral_counts hr).2.1]
    at hcount

theorem released_block (h : ∀ c ∈ rest, c.isNeutral = true)
    (hr : ∀ c ∈ reads, c.isNeutral = true) :
    Released (.init u :: rest ++ [.malloc n] ++ reads ++ [.cleanup] ++ [.free]) := by
  obtain ⟨hcleanup, hfree, -⟩ := neutral_counts h
  obtain ⟨hcleanup', hfree', -⟩ := neutral_counts hr
  refine ⟨fun _ _ => ?_, fun _ _ => ?_⟩
  · simp [List.count_append, hcleanup, hcleanup']
  · simp [List.count_append, hfree, hfree']

end

namespace HttpTurn

variable {t : HttpTurn} {method url : List Char} {body : Option (List Char)}
  {headers : Option (Table Value Value)} {sent : List HttpClientCall} {fuel : Nat} {d : Ending}

theorem headerLoop_neutral (h : t.headerLoop fuel headers = some (sent, d)) :
    ∀ c ∈ sent, c.isNeutral = true := by
  cases headers with
  | none =>
    cases h
    exact fun c hc => absurd hc List.not_mem_nil
  | some headers =>
    obtain ⟨⟨rs, d'⟩, hrs, heq⟩ := Option.map_eq_some_iff.mp h
    cases heq
    intro c hc
    obtain ⟨r, hr, rfl⟩ := List.mem_map.mp hc
    obtain ⟨e, -, hbody⟩ := Table.loop_body hrs r hr
    obtain ⟨v, -, -, hcall⟩ := headerRound_eq_some hbody
    rw [hcall]
    rfl

theorem opening_neutral (h : t.headerLoop fuel headers = some (sent, d)) :
    ∃ rest, opening method url body ++ sent = .init (cString url) :: rest ∧
      ∀ c ∈ rest, c.isNeutral = true := by
  refine ⟨_, rfl, fun c hc => ?_⟩
  rcases List.mem_append.mp hc with hc | hc
  · rcases List.mem_cons.mp hc with rfl | hc
    · rfl
    · obtain ⟨b, -, rfl⟩ := List.mem_map.mp hc
      rfl
  · exact headerLoop_neutral h c hc

theorem performed_neutral (h : t.headerLoop fuel headers = some (sent, d)) :
    ∃ rest, opening method url body ++ sent ++ [.perform] = .init (cString url) :: rest ∧
      ∀ c ∈ rest, c.isNeutral = true := by
  obtain ⟨rest, heq, hrest⟩ : ∃ rest, opening method url body ++ sent = _ :: rest ∧ _ :=
    opening_neutral h
  refine ⟨rest ++ [.perform], by rw [heq]; rfl, fun c hc => ?_⟩
  rcases List.mem_append.mp hc with hc | hc
  · exact hrest c hc
  · obtain rfl := List.mem_singleton.mp hc
    rfl

theorem neutral_of_reads {reads : List HttpClientCall}
    (h : ∀ c ∈ reads, ∃ asked got, c = .read asked got) : ∀ c ∈ reads, c.isNeutral = true := by
  intro c hc
  obtain ⟨asked, got, rfl⟩ := h c hc
  rfl

end HttpTurn

theorem lHttpRequest_refused {t : HttpTurn} {args : HttpArgs} {fuel : Nat} {exit : HttpExit}
    (h : lHttpRequest t fuel args = some exit) (hargs : ¬ ArgsTaken t args) : exit.calls = [] := by
  unfold lHttpRequest at h
  split at h
  · cases h
    rfl
  · next hmethod =>
    split at h
    · cases h
      rfl
    · next hurl =>
      split at h
      · cases h
        rfl
      · next hbody =>
        refine absurd ⟨?_, ?_, ?_⟩ hargs
        · exact hmethod ▸ Option.some_ne_none _
        · exact hurl ▸ Option.some_ne_none _
        · exact hbody ▸ Option.some_ne_none _

/-- **Releases.**  Every exit has released the handle and the block exactly if no
handle is taken, or the request leaves neither in the header loop, nor for an
error of `perform`, nor for want of memory with a block. -/
theorem http_releases_iff (t : HttpTurn) (args : HttpArgs) :
    (∀ fuel exit, lHttpRequest t fuel args = some exit → Released exit.calls) ↔
      (ArgsTaken t args → t.initialised = true → Releases t args) := by
  constructor
  · intro h hargs hinit
    obtain ⟨method, url, body, hreq⟩ := lHttpRequest_of_taken hargs
    have hperformed : t.HeadersStop args.headers .ended → t.performed = 0 := by
      intro hended
      obtain ⟨fuel, sent, hloop⟩ := (t.headerLoop_ends_iff args.headers .ended).mpr hended
      by_contra hperf
      have hexit := (hreq fuel).trans (HttpTurn.request_of_ended hinit hloop)
      rw [if_neg hperf] at hexit
      have hrel := h fuel _ hexit
      obtain ⟨rest, heq, hrest⟩ := HttpTurn.performed_neutral hloop
      rw [heq] at hrel
      exact not_released_early hrest hrel
    refine ⟨fun hraise => ?_, hperformed, fun hended hb => ?_⟩
    · obtain ⟨fuel, sent, hloop⟩ := (t.headerLoop_ends_iff args.headers .raised).mpr hraise
      have hrel := h fuel _ ((hreq fuel).trans (HttpTurn.request_of_raised hinit hloop))
      obtain ⟨rest, heq, hrest⟩ := HttpTurn.opening_neutral hloop
      rw [heq] at hrel
      exact not_released_early hrest hrel
    · obtain ⟨m, sent, hloop⟩ := (t.headerLoop_ends_iff args.headers .ended).mpr hended
      obtain ⟨rest, heq, hrest⟩ := HttpTurn.performed_neutral hloop
      -- fuel enough for both loops
      have hfuel : t.length.toNat < max m (t.length.toNat + 1) := by omega
      obtain ⟨exit, hfetch⟩ := HttpTurn.fetch_defined
        (HttpTurn.opening method url body ++ sent ++ [.perform]) hfuel (fun _ => hb)
      have hloop := HttpTurn.headerLoop_mono (Nat.le_max_left m (t.length.toNat + 1)) hloop
      have hexit := (hreq _).trans (HttpTurn.request_of_ended hinit hloop)
      rw [if_pos (hperformed hended), hfetch] at hexit
      have hrel := h _ exit hexit
      by_contra hpushed
      rw [heq] at hfetch
      rcases HttpTurn.fetch_cases hfetch with
        ⟨hneg, -⟩ | ⟨-, reads, j, total, buf, -, -, hreads, rfl⟩
      · exact hneg hb.1
      · rw [if_neg hpushed] at hrel
        exact not_released_block hrest (HttpTurn.neutral_of_reads hreads) hrel
  · intro h fuel exit hexit
    by_cases hargs : ArgsTaken t args
    · obtain ⟨method, url, body, hreq⟩ := lHttpRequest_of_taken hargs
      rw [hreq] at hexit
      obtain ⟨hinit, sent, d, hloop⟩ := HttpTurn.request_reaches hexit
      have hrel := h hargs hinit
      have hstop := (t.headerLoop_ends_iff args.headers d).mp ⟨fuel, sent, hloop⟩
      cases d with
      | raised => exact absurd hstop hrel.headers
      | ended =>
        rw [HttpTurn.request_of_ended hinit hloop, if_pos (hrel.performed hstop)] at hexit
        obtain ⟨rest, heq, hrest⟩ := HttpTurn.performed_neutral hloop
        rw [heq] at hexit
        rcases HttpTurn.fetch_cases hexit with
          ⟨-, rfl⟩ | ⟨hb, reads, j, total, buf, -, -, hreads, rfl⟩
        · exact released_plain hrest
        · rw [if_pos (hrel.pushed hstop hb)]
          exact released_block hrest (HttpTurn.neutral_of_reads hreads)
    · rw [lHttpRequest_refused hexit hargs]
      exact ⟨fun _ hu => absurd hu List.not_mem_nil, fun _ hn => absurd hn List.not_mem_nil⟩

/-- `esp_http_client_perform` fails: `ensure_ok` raises its error. -/
theorem http_error_leaks :
    ¬ ∀ t args fuel exit, lHttpRequest t fuel args = some exit → Released exit.calls := by
  intro h
  let t : HttpTurn := { httpTurn 0 [] with performed := -1 }
  have hrel := (h t httpGet 0 _ rfl).handle _ List.mem_cons_self
  exact absurd hrel (by decide)

end CLIos
