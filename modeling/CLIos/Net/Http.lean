import CLIos.Lib.CArray
import CLIos.Lib.LuaApi
import CLIos.Lib.Traversal
import Mathlib.Data.List.TakeDrop

/-!
# The HTTP client: one request

`L_HTTP_REQUEST` of components/NET/net_http.c.  What ESP-IDF, the server, malloc
and Lua's allocator answer is in `HttpTurn`; the server sends `body`, and the
reads deliver it piece by piece.  A NULL handle, a NULL buffer and a length whose
successor is no `int` have no defined effect (`none`), like a loop that has not
ended within the fuel.

The length is narrowed to `int`, only a positive one is read, and the reading
ends at the first result that is not positive: so a body may be returned that is
cut.
-/

namespace CLIos

open CMem LuaApi Traversal

inductive HttpMethod where
  | get | post | put | delete
deriving DecidableEq

inductive HttpClientCall where
  | init (url : List Char)
  | setMethod (m : HttpMethod)
  | setPostField (data : List Char) (len : Int)
  | setHeader (key value : List Char)
  | perform
  | malloc (size : Nat)
  /-- what was asked, and the bytes delivered; `none` is an error -/
  | read (asked : Int) (got : Option (List Char))
  | cleanup
  | free
deriving DecidableEq

/-- What `esp_http_client_read` does: it delivers at most `k` bytes, or fails. -/
inductive HttpRead where
  | data (k : Nat)
  | error
deriving DecidableEq

structure HttpTurn where
  texts : NumberTexts
  /-- `esp_http_client_init` does not return NULL -/
  initialised : Bool
  /-- what `esp_http_client_perform` returns -/
  performed : Int
  status : Int
  /-- what `esp_http_client_get_content_length` returns, an `int64_t` -/
  contentLength : Int
  body : List Char
  reads : Nat → HttpRead
  /-- `malloc` does not return NULL -/
  allocated : Bool
  /-- what is in the memory that `malloc` returns -/
  fresh : (n : Nat) → CArray Char n
  /-- there is memory for the string that is returned -/
  pushed : Bool

/-- The arguments of `http.request`; `headers` is the fourth if it is a table. -/
structure HttpArgs where
  method : Value
  url : Value
  body : Value
  headers : Option (Table Value Value)

inductive HttpError where
  | argument (n : Nat)
  /-- a key or a value is no string, or `lua_next` does not know the key -/
  | header
  /-- `ensure_ok` -/
  | espErr (err : Int)
  | memory
deriving DecidableEq

structure HttpExit where
  calls : List HttpClientCall
  /-- the status and the body, or the error that is raised -/
  answer : Except HttpError (Int × List Char)

/-- `!strcasecmp(method, "POST")` and so on -/
def httpMethod (method : List Char) : HttpMethod :=
  let m := (cString method).map Char.toUpper
  if m = "POST".toList then .post
  else if m = "PUT".toList then .put
  else if m = "DELETE".toList then .delete
  else .get

namespace HttpTurn

/-- `content_len` -/
def length (t : HttpTurn) : Int := toInt t.contentLength

/-- The read number `i`, `asked` bytes at most, after `total` bytes. -/
def read (t : HttpTurn) (i total : Nat) (asked : Int) : Option (List Char) :=
  match t.reads i with
  | .data k => some ((t.body.drop total).take (min k asked.toNat))
  | .error => none

/-- `while((r = esp_http_client_read(h, buf+total, content_len-total)) > 0) total += r;` -/
def readLoop (t : HttpTurn) (n : Nat) : Nat → Nat → Nat → CArray Char (n + 1) →
    Option (List HttpClientCall × Nat × CArray Char (n + 1))
  | 0, _, _, _ => none
  | fuel + 1, i, total, buf =>
    let asked : Int := n - total
    let got := t.read i total asked
    if 0 < (got.getD []).length then
      (buf.memcpy total (got.getD [])).bind fun buf =>
      (t.readLoop n fuel (i + 1) (total + (got.getD []).length) buf).map fun r =>
        (.read asked got :: r.1, r.2)
    else some ([.read asked got], total, buf)

/-- From `esp_http_client_get_status_code` on, after the calls `cs`. -/
def fetch (t : HttpTurn) (fuel : Nat) (cs : List HttpClientCall) : Option HttpExit :=
  if 0 < t.length then
    if t.length = 2147483647 ∨ t.allocated = false then none
    else
      let n := t.length.toNat
      (t.readLoop n fuel 0 0 (t.fresh (n + 1))).bind fun (reads, total, buf) =>
      (buf.store total '\x00').map fun buf =>
      let cs := cs ++ [.malloc (n + 1)] ++ reads ++ [.cleanup]
      if t.pushed then ⟨cs ++ [.free], .ok (t.status, buf.first total)⟩
      else ⟨cs, .error .memory⟩
  else some ⟨cs ++ [.cleanup], if t.pushed then .ok (t.status, []) else .error .memory⟩

/-- One round of the header loop: the string that the key has become is the
cursor of the next round. -/
def headerRound (t : HttpTurn) (key value : Value) : Option (Value × HttpClientCall) :=
  (t.texts.checkString key).bind fun k =>
  (t.texts.checkString value).map fun v =>
  (.string k, .setHeader (cString k) (cString v))

/-- The header loop; without a table there is none. -/
def headerLoop (t : HttpTurn) (fuel : Nat) :
    Option (Table Value Value) → Option (List HttpClientCall × Ending)
  | none => some ([], .ended)
  | some headers =>
    (headers.loop t.headerRound fuel none).map fun r => (r.1.map Prod.snd, r.2)

/-- The calls before the header loop. -/
def opening (method url : List Char) (body : Option (List Char)) : List HttpClientCall :=
  let post := body.toList.map fun b => .setPostField b (toInt b.length)
  [.init (cString url), .setMethod (httpMethod method)] ++ post

/-- From `esp_http_client_init` on. -/
def request (t : HttpTurn) (fuel : Nat) (method url : List Char) (body : Option (List Char))
    (headers : Option (Table Value Value)) : Option HttpExit :=
  if t.initialised = false then none
  else
    (t.headerLoop fuel headers).bind fun (sent, ending) =>
    match ending with
    | .raised => some ⟨opening method url body ++ sent, .error .header⟩
    | .ended =>
      let cs := opening method url body ++ sent ++ [.perform]
      if t.performed = 0 then t.fetch fuel cs
      else some ⟨cs, .error (.espErr t.performed)⟩

end HttpTurn

/-- `luaL_optlstring(L, 3, NULL, &blen)` -/
def optBody (N : NumberTexts) (v : Value) : Option (Option (List Char)) :=
  if v = .nil then some none else (N.checkString v).map some

def lHttpRequest (t : HttpTurn) (fuel : Nat) (args : HttpArgs) : Option HttpExit :=
  match t.texts.optString args.method "GET".toList with
  | none => some ⟨[], .error (.argument 1)⟩
  | some method =>
    match t.texts.checkString args.url with
    | none => some ⟨[], .error (.argument 2)⟩
    | some url =>
      match optBody t.texts args.body with
      | none => some ⟨[], .error (.argument 3)⟩
      | some body => t.request fuel method url body args.headers

/-! ## The reading loop -/

/-- What a read delivers at most. -/
def HttpRead.size : HttpRead → Nat
  | .data k => k
  | .error => 0

/-- What the first `m` reads deliver at most. -/
def delivered (reads : Nat → HttpRead) : Nat → Nat
  | 0 => 0
  | m + 1 => delivered reads m + (reads m).size

theorem delivered_mono (reads : Nat → HttpRead) {m j : Nat} (h : m ≤ j) :
    delivered reads m ≤ delivered reads j := by
  induction h with
  | refl => exact Nat.le_refl _
  | step _ ih => exact Nat.le_trans ih (Nat.le_add_right _ _)

namespace HttpTurn

/-- `i` reads were positive and have stored `total` bytes of the body. -/
structure ReadInv (t : HttpTurn) (n i total : Nat) (buf : CArray Char (n + 1)) : Prop where
  total_eq : total = min (delivered t.reads i) (min n t.body.length)
  positive : ∀ j, j < i → 0 < (t.reads j).size
  stored : buf.first total = t.body.take total

variable (t : HttpTurn) {n i total : Nat} {buf : CArray Char (n + 1)}

theorem readInv_zero (buf : CArray Char (n + 1)) : t.ReadInv n 0 0 buf where
  total_eq := (Nat.zero_min _).symm
  positive := fun j hj => absurd hj (Nat.not_lt_zero j)
  stored := by rw [CArray.first_zero, List.take_zero]

theorem read_getD (i total : Nat) (asked : Int) :
    (t.read i total asked).getD [] =
      (t.body.drop total).take (min (t.reads i).size asked.toNat) := by
  unfold read
  cases t.reads i with
  | data k => rfl
  | error =>
    show [] = (t.body.drop total).take (min 0 asked.toNat)
    rw [Nat.zero_min, List.take_zero]

variable {t}

theorem ReadInv.length_read (h : t.ReadInv n i total buf) :
    ((t.read i total (n - total)).getD []).length =
      min (t.reads i).size (min n t.body.length - total) := by
  have htotal := h.total_eq
  rw [read_getD, List.length_take, List.length_drop]
  omega

theorem ReadInv.step (h : t.ReadInv n i total buf)
    (hpos : 0 < ((t.read i total (n - total)).getD []).length) :
    ∃ buf', buf.memcpy total ((t.read i total (n - total)).getD []) = some buf' ∧
      t.ReadInv n (i + 1) (total + ((t.read i total (n - total)).getD []).length) buf' := by
  have hlen := h.length_read
  have htotal := h.total_eq
  obtain ⟨buf', hbuf⟩ := (CArray.memcpy_eq_some_iff buf total
    ((t.read i total (n - total)).getD [])).mpr (by omega)
  refine ⟨buf', hbuf, ?_, fun j hj => ?_, ?_⟩
  · show _ = min (delivered t.reads i + (t.reads i).size) _
    omega
  · rcases Nat.lt_succ_iff_lt_or_eq.mp hj with hj | rfl
    · exact h.positive j hj
    · omega
  · rw [CArray.first_memcpy hbuf, h.stored, List.take_add, read_getD, List.length_take]
    congr 1
    rw [List.take_eq_take_iff]
    omega

/-- How the loop ends: at a read that is not positive, or with nothing left to ask
for or to deliver. -/
theorem ReadInv.stop (h : t.ReadInv n i total buf)
    (hzero : ¬ 0 < ((t.read i total (n - total)).getD []).length) :
    (t.reads i).size = 0 ∨ total = min n t.body.length := by
  have hlen := h.length_read
  have htotal := h.total_eq
  omega

theorem ReadInv.total_le (h : t.ReadInv n i total buf) : total ≤ n := by
  have htotal := h.total_eq
  omega

theorem readLoop_inv {fuel total' : Nat} {calls : List HttpClientCall} {buf' : CArray Char (n + 1)}
    (h : t.ReadInv n i total buf) (hr : t.readLoop n fuel i total buf = some (calls, total', buf')) :
    ∃ j, t.ReadInv n j total' buf' ∧ ((t.reads j).size = 0 ∨ total' = min n t.body.length) ∧
      ∀ c ∈ calls, ∃ asked got, c = .read asked got := by
  induction fuel generalizing i total buf calls with
  | zero => cases hr
  | succ fuel ih =>
    unfold readLoop at hr
    simp only at hr
    split at hr
    · next hpos =>
      obtain ⟨buf₁, hbuf, hinv⟩ := h.step hpos
      rw [hbuf, Option.bind_some] at hr
      obtain ⟨⟨calls₁, total₁, buf₂⟩, hrest, heq⟩ := Option.map_eq_some_iff.mp hr
      cases heq
      obtain ⟨j, hj, hstop, hcalls⟩ := ih hinv hrest
      refine ⟨j, hj, hstop, fun c hc => ?_⟩
      rcases List.mem_cons.mp hc with rfl | hc
      · exact ⟨_, _, rfl⟩
      · exact hcalls c hc
    · next hzero =>
      cases hr
      refine ⟨i, h, h.stop hzero, fun c hc => ?_⟩
      exact ⟨_, _, List.mem_singleton.mp hc⟩

/-- Every round but the last stores a byte. -/
theorem readLoop_defined {fuel : Nat} (h : t.ReadInv n i total buf) (hfuel : n - total < fuel) :
    ∃ r, t.readLoop n fuel i total buf = some r := by
  induction fuel generalizing i total buf with
  | zero => omega
  | succ fuel ih =>
    unfold readLoop
    simp only
    split
    · next hpos =>
      obtain ⟨buf₁, hbuf, hinv⟩ := h.step hpos
      have hle := hinv.total_le
      obtain ⟨r, hr⟩ := ih hinv (by omega)
      exact ⟨_, by rw [hbuf, Option.bind_some, hr, Option.map_some]⟩
    · exact ⟨_, rfl⟩

/-! ## The body that is returned -/

/-- `malloc` is asked for a block, and returns one. -/
def Buffered (t : HttpTurn) : Prop :=
  0 < t.length ∧ t.length ≠ 2147483647 ∧ t.allocated = true

/-- With a block: the block is given back if the string was made. -/
theorem fetch_cases {fuel : Nat} {cs : List HttpClientCall} {exit : HttpExit}
    (h : t.fetch fuel cs = some exit) :
    (¬ 0 < t.length ∧
      exit = ⟨cs ++ [.cleanup], if t.pushed then .ok (t.status, []) else .error .memory⟩) ∨
    (t.Buffered ∧ ∃ reads j total buf, t.ReadInv t.length.toNat j total buf ∧
      ((t.reads j).size = 0 ∨ total = min t.length.toNat t.body.length) ∧
      (∀ c ∈ reads, ∃ asked got, c = .read asked got) ∧
      exit = if t.pushed then
          ⟨cs ++ [.malloc (t.length.toNat + 1)] ++ reads ++ [.cleanup] ++ [.free],
            .ok (t.status, t.body.take total)⟩
        else ⟨cs ++ [.malloc (t.length.toNat + 1)] ++ reads ++ [.cleanup], .error .memory⟩) := by
  unfold fetch at h
  simp only at h
  split at h
  · next hpos =>
    split at h
    · cases h
    · next hbad =>
      have hbuffered : t.Buffered := by
        refine ⟨hpos, fun heq => hbad (Or.inl heq), ?_⟩
        cases ha : t.allocated with
        | true => rfl
        | false => exact absurd (Or.inr ha) hbad
      obtain ⟨⟨reads, total, buf⟩, hloop, h⟩ := Option.bind_eq_some_iff.mp h
      obtain ⟨buf', hstore, rfl⟩ := Option.map_eq_some_iff.mp h
      obtain ⟨j, hinv, hstop, hreads⟩ := readLoop_inv (t.readInv_zero _) hloop
      refine Or.inr ⟨hbuffered, reads, j, total, buf, hinv, hstop, hreads, ?_⟩
      rw [CArray.first_store_of_le hstore (Nat.le_refl total), hinv.stored]
  · next hneg => exact Or.inl ⟨hneg, (Option.some.inj h).symm⟩

theorem fetch_defined (cs : List HttpClientCall) {fuel : Nat} (hfuel : t.length.toNat < fuel)
    (h : 0 < t.length → t.Buffered) : ∃ exit, t.fetch fuel cs = some exit := by
  unfold fetch
  simp only
  split
  · next hpos =>
    have hb := h hpos
    rw [if_neg (by rintro (heq | ha); exacts [hb.2.1 heq, by rw [hb.2.2] at ha; cases ha])]
    obtain ⟨⟨reads, total, buf⟩, hloop⟩ := readLoop_defined (t.readInv_zero (t.fresh _))
      (show t.length.toNat - 0 < fuel from hfuel)
    obtain ⟨j, hinv, -⟩ := readLoop_inv (t.readInv_zero _) hloop
    have hle := hinv.total_le
    obtain ⟨buf', hstore⟩ := CArray.store_eq_some buf total '\x00' (by omega)
    exact ⟨_, by rw [hloop, Option.bind_some, hstore, Option.map_some]⟩
  · exact ⟨_, rfl⟩

/-- The reads before the first that is not positive deliver as much as the body. -/
def Delivers (t : HttpTurn) : Prop :=
  ∃ m, (∀ j, j < m → 0 < (t.reads j).size) ∧ t.body.length ≤ delivered t.reads m

theorem delivers_iff {j total : Nat} {buf : CArray Char (n + 1)} (h : t.ReadInv n j total buf)
    (hstop : (t.reads j).size = 0 ∨ total = min n t.body.length) :
    t.body.take total = t.body ↔ t.body.length ≤ n ∧ t.Delivers := by
  have htotal := h.total_eq
  rw [List.take_eq_self_iff]
  constructor
  · intro hle
    exact ⟨by omega, j, h.positive, by omega⟩
  · rintro ⟨hn, m, hpos, hm⟩
    rcases hstop with hzero | hall
    · -- the loop has not stopped before round `m`
      have hmj : m ≤ j := by
        by_contra hlt
        have := hpos j (by omega)
        omega
      have := delivered_mono t.reads hmj
      omega
    · omega

/-! ## The whole request -/

/-- The header loop ends this way. -/
def HeadersStop (t : HttpTurn) (headers : Option (Table Value Value)) (d : Ending) : Prop :=
  match headers with
  | none => d = .ended
  | some h => h.Stops t.headerRound d

theorem headerLoop_some (t : HttpTurn) (fuel : Nat) (headers : Table Value Value) :
    t.headerLoop fuel (some headers) =
      (headers.loop t.headerRound fuel none).map fun r => (r.1.map Prod.snd, r.2) := rfl

theorem headerLoop_ends_iff (headers : Option (Table Value Value)) (d : Ending) :
    (∃ fuel sent, t.headerLoop fuel headers = some (sent, d)) ↔ t.HeadersStop headers d := by
  cases headers with
  | none =>
    constructor
    · rintro ⟨fuel, sent, h⟩
      cases h
      rfl
    · rintro rfl
      exact ⟨0, [], rfl⟩
  | some headers =>
    show _ ↔ headers.Stops t.headerRound d
    rw [← Table.loop_ends_iff]
    constructor
    · rintro ⟨fuel, sent, h⟩
      obtain ⟨p, hp, heq⟩ := Option.map_eq_some_iff.mp h
      cases heq
      exact ⟨fuel, p.1, hp⟩
    · rintro ⟨fuel, rs, h⟩
      exact ⟨fuel, rs.map Prod.snd, by rw [headerLoop_some, h]; rfl⟩

theorem headerLoop_unique {headers : Option (Table Value Value)} {n m : Nat}
    {p q : List HttpClientCall × Ending} (h : t.headerLoop n headers = some p)
    (h' : t.headerLoop m headers = some q) : p = q := by
  cases headers with
  | none => exact Option.some.inj (h.symm.trans h')
  | some headers =>
    obtain ⟨r, hr, rfl⟩ := Option.map_eq_some_iff.mp h
    obtain ⟨r', hr', rfl⟩ := Option.map_eq_some_iff.mp h'
    rw [Table.loop_unique hr hr']

theorem headerLoop_mono {headers : Option (Table Value Value)} {n m : Nat}
    {p : List HttpClientCall × Ending} (hle : n ≤ m) (h : t.headerLoop n headers = some p) :
    t.headerLoop m headers = some p := by
  cases headers with
  | none => exact h
  | some headers =>
    obtain ⟨r, hr, rfl⟩ := Option.map_eq_some_iff.mp h
    rw [headerLoop_some, Table.loop_mono hle hr]
    rfl

variable {method url : List Char} {body : Option (List Char)}
  {headers : Option (Table Value Value)} {sent : List HttpClientCall} {fuel : Nat}

theorem request_of_raised (hi : t.initialised = true)
    (h : t.headerLoop fuel headers = some (sent, .raised)) :
    t.request fuel method url body headers =
      some ⟨opening method url body ++ sent, .error .header⟩ := by
  unfold request
  rw [hi, if_neg (by decide), h]
  rfl

theorem request_of_ended (hi : t.initialised = true)
    (h : t.headerLoop fuel headers = some (sent, .ended)) :
    t.request fuel method url body headers =
      if t.performed = 0 then t.fetch fuel (opening method url body ++ sent ++ [.perform])
      else some ⟨opening method url body ++ sent ++ [.perform], .error (.espErr t.performed)⟩ := by
  unfold request
  rw [hi, if_neg (by decide), h]
  rfl

theorem request_reaches {exit : HttpExit} (h : t.request fuel method url body headers = some exit) :
    t.initialised = true ∧ ∃ sent d, t.headerLoop fuel headers = some (sent, d) := by
  unfold request at h
  split at h
  · cases h
  · next hi =>
    obtain ⟨p, hp, -⟩ := Option.bind_eq_some_iff.mp h
    exact ⟨(Bool.not_eq_false _).mp hi, p.1, p.2, hp⟩

end HttpTurn

/-- No argument is refused. -/
def ArgsTaken (t : HttpTurn) (args : HttpArgs) : Prop :=
  t.texts.optString args.method "GET".toList ≠ none ∧ t.texts.checkString args.url ≠ none ∧
    optBody t.texts args.body ≠ none

theorem lHttpRequest_of_taken {t : HttpTurn} {args : HttpArgs} (h : ArgsTaken t args) :
    ∃ method url body, ∀ fuel,
      lHttpRequest t fuel args = t.request fuel method url body args.headers := by
  obtain ⟨method, hmethod⟩ := Option.ne_none_iff_exists'.mp h.1
  obtain ⟨url, hurl⟩ := Option.ne_none_iff_exists'.mp h.2.1
  obtain ⟨body, hbody⟩ := Option.ne_none_iff_exists'.mp h.2.2
  refine ⟨method, url, body, fun fuel => ?_⟩
  unfold lHttpRequest
  simp only [hmethod, hurl, hbody]

/-- `esp_http_client_perform` is called, and accepts the response. -/
structure Performs (t : HttpTurn) (args : HttpArgs) : Prop where
  taken : ArgsTaken t args
  initialised : t.initialised = true
  headers : t.HeadersStop args.headers .ended
  performed : t.performed = 0

/-- From there on only `fetch` matters. -/
theorem Performs.request {t : HttpTurn} {args : HttpArgs} (h : Performs t args) :
    ∃ cs m, (∀ fuel, m ≤ fuel → lHttpRequest t fuel args = t.fetch fuel cs) ∧
      ∀ fuel exit, lHttpRequest t fuel args = some exit → t.fetch fuel cs = some exit := by
  obtain ⟨method, url, body, hreq⟩ := lHttpRequest_of_taken h.taken
  obtain ⟨m, sent, hloop⟩ := (t.headerLoop_ends_iff args.headers .ended).mpr h.headers
  have hfetch : ∀ fuel, t.headerLoop fuel args.headers = some (sent, .ended) →
      lHttpRequest t fuel args =
        t.fetch fuel (HttpTurn.opening method url body ++ sent ++ [.perform]) := by
    intro fuel hf
    rw [hreq, HttpTurn.request_of_ended h.initialised hf, if_pos h.performed]
  refine ⟨_, m, fun fuel hle => hfetch fuel (HttpTurn.headerLoop_mono hle hloop), ?_⟩
  intro fuel exit hexit
  obtain ⟨-, sent', d, hp⟩ := HttpTurn.request_reaches ((hreq fuel).symm.trans hexit)
  rw [HttpTurn.headerLoop_unique hp hloop] at hp
  rw [← hfetch fuel hp]
  exact hexit

/-- The request ends; and if it returns, then with the status and the body. -/
def WholeOrError (t : HttpTurn) (args : HttpArgs) : Prop :=
  ∃ fuel exit, lHttpRequest t fuel args = some exit ∧
    ∀ status text, exit.answer = .ok (status, text) → status = t.status ∧ text = t.body

/-- The narrowed length is not positive only if there is no body, and the reads
deliver all of the body where it is; or there is no memory for the result. -/
def BodyComes (t : HttpTurn) : Prop :=
  if 0 < t.length then
    t.Buffered ∧ (t.pushed = true → t.body.length ≤ t.length.toNat ∧ t.Delivers)
  else t.pushed = true → t.body = []

/-- **Bodies.**  A request whose response was accepted returns the whole body or
raises an error exactly if the body comes whole. -/
theorem http_body_iff (t : HttpTurn) (args : HttpArgs) (h : Performs t args) :
    WholeOrError t args ↔ BodyComes t := by
  obtain ⟨cs, m, hlarge, hinv⟩ := h.request
  constructor
  · rintro ⟨fuel, exit, hexit, hwhole⟩
    unfold BodyComes
    rcases HttpTurn.fetch_cases (hinv fuel exit hexit) with
      ⟨hneg, rfl⟩ | ⟨hb, reads, j, total, buf, hread, hstop, -, rfl⟩
    · rw [if_neg hneg]
      intro hpushed
      have := hwhole t.status [] (by rw [hpushed]; rfl)
      exact this.2.symm
    · rw [if_pos hb.1]
      refine ⟨hb, fun hpushed => ?_⟩
      have := hwhole t.status (t.body.take total) (by rw [if_pos hpushed])
      exact (HttpTurn.delivers_iff hread hstop).mp this.2
  · intro hcomes
    have hfuel : t.length.toNat < max m (t.length.toNat + 1) := by omega
    have hbuffered : 0 < t.length → t.Buffered := by
      intro hpos
      rw [BodyComes, if_pos hpos] at hcomes
      exact hcomes.1
    obtain ⟨exit, hexit⟩ := HttpTurn.fetch_defined cs hfuel hbuffered
    refine ⟨_, exit, (hlarge _ (Nat.le_max_left _ _)).trans hexit, fun status text hans => ?_⟩
    rcases HttpTurn.fetch_cases hexit with
      ⟨hneg, rfl⟩ | ⟨hb, reads, j, total, buf, hread, hstop, -, rfl⟩
    · rw [BodyComes, if_neg hneg] at hcomes
      simp only at hans
      split at hans <;> cases hans
      next hpushed => exact ⟨rfl, (hcomes hpushed).symm⟩
    · rw [BodyComes, if_pos hb.1] at hcomes
      split at hans <;> cases hans
      next hpushed => exact ⟨rfl, (HttpTurn.delivers_iff hread hstop).mpr (hcomes.2 hpushed)⟩

def httpTurn (contentLength : Int) (body : List Char) : HttpTurn where
  texts := ⟨fun _ => [], fun _ => true⟩
  initialised := true
  performed := 0
  status := 200
  contentLength := contentLength
  body := body
  reads := fun _ => .data 5
  allocated := true
  fresh := fun n => CArray.fill n '?'
  pushed := true

def httpGet : HttpArgs where
  method := .nil
  url := .string "host".toList
  body := .nil
  headers := none

theorem httpGet_performs (contentLength : Int) (body : List Char) :
    Performs (httpTurn contentLength body) httpGet where
  taken := ⟨Option.some_ne_none _, Option.some_ne_none _, Option.some_ne_none _⟩
  initialised := rfl
  headers := rfl
  performed := rfl

theorem http_body_hello : WholeOrError (httpTurn 11 "hello world".toList) httpGet := by
  apply (http_body_iff _ _ (httpGet_performs _ _)).mpr
  have hpos : 0 < (httpTurn 11 "hello world".toList).length := by decide
  rw [BodyComes, if_pos hpos]
  exact ⟨⟨hpos, by decide, rfl⟩, fun _ => ⟨by decide, 3, fun _ _ => Nat.succ_pos 4, by decide⟩⟩

/-- A chunked response: the content length is -1, and nothing is read. -/
theorem http_chunked_empty : ¬ ∀ t args, Performs t args → WholeOrError t args := by
  intro h
  obtain ⟨fuel, exit, hexit, hwhole⟩ :=
    h (httpTurn (-1) "hello".toList) httpGet (httpGet_performs _ _)
  obtain rfl := Option.some.inj (hexit : some _ = some exit)
  exact absurd (hwhole 200 [] rfl).2 (by decide)

end CLIos
